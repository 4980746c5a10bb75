import Mathlib.Data.List.Nodup
import NamespaceService.Proofs.Store.Exclusion
import NamespaceService.Proofs.Transaction.Reads
import NamespaceService.Proofs.Transaction.Solo
import NamespaceService.Proofs.Transaction.Strengths

namespace NamespaceService

open Program

-- A key, and how strongly it is locked.
abbrev Grant := Key × LockKind

namespace LockSet

variable {locks : LockSet} {l l' : List Grant} {key : Key} {kind : LockKind}

-- The locks after all of these were recorded, one after another.
def recordAll (locks : LockSet) (l : List Grant) : LockSet :=
  l.foldl (fun locks grant => locks.record grant.1 grant.2) locks

theorem recordAll_append : locks.recordAll (l ++ l') = (locks.recordAll l).recordAll l' :=
  List.foldl_append

theorem holds_recordAll_iff : (locks.recordAll l).holds key kind ↔
    locks.holds key kind ∨ ∃ grant ∈ l, grant.1 = key ∧ kind ≤ grant.2 := by
  induction l generalizing locks
  case nil => simp [recordAll]
  case cons grant l ih =>
    change ((locks.record grant.1 grant.2).recordAll l).holds key kind ↔ _
    rw [ih, holds_record_iff, or_assoc]
    simp

-- The recorded kind is told by what is held.
theorem kindOf?_eq_iff {held : Option LockKind} : locks.kindOf? key = held ↔
    ∀ kind, locks.holds key kind ↔ ∃ k, held = some k ∧ kind ≤ k := by
  refine ⟨fun h kind => h ▸ holds_iff, fun h => LockKind.ext_le fun kind => ?_⟩
  rw [← h kind]
  exact holds_iff.symm

end LockSet

namespace Rows

variable {rows : Rows} {l l' : List Grant} {n : Node} {kind : LockKind} {finder : Finder}

-- What a lookup of one row is granted: the row, or the key that it was looked up by.
def grant (rows : Rows) (kind : LockKind) (finder : Finder) : List Grant :=
  (Store.restsOn? finder (rows.lookup finder)).toList.map (·, kind)

def grantList (rows : Rows) (kind : LockKind) (finder : Finder) : List Grant :=
  (rows.lookupList finder).map fun row => (row.key, kind)

def granted (rows : Rows) : Event → List Grant
  | .find _ kind finder => rows.grant kind finder
  | .findList _ kind finder => rows.grantList kind finder
  | _ => []

def grants (rows : Rows) (events : List Event) : List Grant :=
  events.flatMap rows.granted

theorem grants_append {events events' : List Event} :
    rows.grants (events ++ events') = rows.grants events ++ rows.grants events' :=
  List.flatMap_append

theorem grant_of_key (h : finder.key? = some key) : rows.grant kind finder = [(key, kind)] := by
  rw [grant]
  cases hlookup : rows.lookup finder
  case none => simp [Store.restsOn?, h]
  case some row => simp [Store.restsOn?, Finder.key_of_selects h (mem_of_lookup hlookup).2]

def node? (rows : Rows) (key : Key) : Option Node :=
  (rows.find? key).bind Row.node?

-- The nodes among the rows that are granted.
def nodesOf (rows : Rows) (grants : List Grant) : List (Node × LockKind) :=
  grants.filterMap fun grant => (rows.node? grant.1).map (·, grant.2)

theorem node?_eq_some_iff {key : Key} :
    rows.node? key = some n ↔ .node n ∈ rows.toList ∧ key = .node n.id := by
  rw [node?, Option.bind_eq_some_iff]
  constructor
  case mp =>
    rintro ⟨row, hfind, hn⟩
    obtain ⟨hmem, hkey⟩ := SortedBy.find?_eq_some_iff.mp hfind
    cases row
    case node m =>
      cases hn
      exact ⟨hmem, hkey.symm⟩
    all_goals cases hn
  case mpr =>
    rintro ⟨hmem, rfl⟩
    exact ⟨.node n, SortedBy.find?_of_mem hmem, rfl⟩

theorem node?_of_mem (h : .node n ∈ rows.toList) : rows.node? (.node n.id) = some n :=
  node?_eq_some_iff.mpr ⟨h, rfl⟩

theorem mem_of_node? {key : Key} (h : rows.node? key = some n) : .node n ∈ rows.toList :=
  (node?_eq_some_iff.mp h).1

theorem id_of_node? {id : NodeId} (h : rows.node? (.node id) = some n) : n.id = id :=
  (Key.node.inj (node?_eq_some_iff.mp h).2).symm

theorem nodesOf_append : rows.nodesOf (l ++ l') = rows.nodesOf l ++ rows.nodesOf l' :=
  List.filterMap_append

theorem mem_nodesOf_iff :
    (n, kind) ∈ rows.nodesOf l ↔ .node n ∈ rows.toList ∧ (.node n.id, kind) ∈ l := by
  rw [nodesOf, List.mem_filterMap]
  constructor
  case mp =>
    rintro ⟨⟨key, held⟩, hgrant, heq⟩
    obtain ⟨m, hm, heq⟩ := Option.map_eq_some_iff.mp heq
    cases heq
    obtain ⟨hmem, rfl⟩ := node?_eq_some_iff.mp hm
    exact ⟨hmem, hgrant⟩
  case mpr =>
    rintro ⟨hmem, hgrant⟩
    exact ⟨_, hgrant, by rw [node?_of_mem hmem]; rfl⟩

-- A lookup that nodes answer is granted the node that it finds.
theorem nodesOf_grant (h : ∀ row, rows.lookup finder = some row → ∃ n : Node, row = .node n) :
    rows.nodesOf (rows.grant kind finder) =
      (((rows.lookup finder).bind Row.node?).map (·, kind)).toList := by
  rw [grant]
  cases hlookup : rows.lookup finder
  case some row =>
    obtain ⟨n, rfl⟩ := h row hlookup
    have hmem := (mem_of_lookup hlookup).1
    simp [Store.restsOn?, nodesOf, node?_of_mem hmem, Row.key, Row.node?]
  case none =>
    cases hkey : finder.key?
    case none => simp [Store.restsOn?, hkey, nodesOf]
    case some key =>
      have hnone : rows.find? key = none := (lookup_of_key? hkey).symm.trans hlookup
      simp [Store.restsOn?, hkey, nodesOf, node?, hnone]

end Rows

namespace Context

variable {c : Context} {rows : Rows} {kind : LockKind} {finder : Finder} {found : List Row}

theorem learnLocked_locks : (c.learnLocked kind finder (rows.lookup finder)).locks =
    c.locks.recordAll (rows.grant kind finder) := by
  rw [Rows.grant]
  cases rows.lookup finder
  case some row => rfl
  case none =>
    rw [learnLocked, Store.restsOn?]
    cases finder.key? <;> rfl

theorem learnLocked_sealed {found : Option Row} :
    (c.learnLocked kind finder found).sealed = c.sealed := by
  cases found
  case some => rfl
  case none =>
    rw [learnLocked]
    split <;> rfl

theorem learnLockedList_locks : (c.learnLockedList kind finder found).locks =
    c.locks.recordAll (found.map fun row => (row.key, kind)) := by
  suffices h : (found.foldl (fun c row => (c.remember row).lock row.key kind) c).locks =
      c.locks.recordAll (found.map fun row => (row.key, kind)) from h
  induction found generalizing c
  case nil => rfl
  case cons row found ih => exact ih

theorem learnLockedList_sealed : (c.learnLockedList kind finder found).sealed = c.sealed := by
  suffices h : (found.foldl (fun c row => (c.remember row).lock row.key kind) c).sealed = c.sealed
    from h
  induction found generalizing c
  case nil => rfl
  case cons row found ih => exact ih

end Context

namespace Action

open Stage

variable {α β : Type} {rows : Rows} {m : Action α} {f : α → Action β} {c c' c'' : Context}
  {s s' s'' : Store} {events events' : List Event} {finder : Finder} {kind : LockKind}
  {P Q : α → Context → List Grant → Prop} {R : β → Context → List Grant → Prop}

-- What a stretch of work has done.
structure Granted (rows : Rows) (c c' : Context) (s s' : Store) (events : List Event) : Prop where
  rows_eq : s'.rows = rows
  events_eq : s'.events = s.events ++ events
  opened : c'.sealed = false
  locks_eq : c'.locks = c.locks.recordAll (rows.grants events)
  refused : s.faults .find ≠ [] → rows.grants events = []

namespace Granted

theorem nothing (hrows : s.rows = rows) (hopen : c.sealed = false) : Granted rows c c s s [] where
  rows_eq := hrows
  events_eq := (List.append_nil _).symm
  opened := hopen
  locks_eq := rfl
  refused _ := rfl

theorem trans (h : Granted rows c c' s s' events) (h' : Granted rows c' c'' s' s'' events')
    (hfaults : s'.faults .find = s.faults .find) : Granted rows c c'' s s'' (events ++ events') where
  rows_eq := h'.rows_eq
  events_eq := by rw [h'.events_eq, h.events_eq, List.append_assoc]
  opened := h'.opened
  locks_eq := by rw [h'.locks_eq, h.locks_eq, Rows.grants_append, LockSet.recordAll_append]
  refused hqueued := by
    rw [Rows.grants_append, h.refused hqueued, h'.refused (hfaults ▸ hqueued), List.append_nil]

end Granted

-- The action, which starts from the context `c`, fails only if lookups are refused; otherwise `P` says
-- what it gives, what it has learned and what it is granted.
def Obtains (rows : Rows) (m : Action α) (c : Context) (P : α → Context → List Grant → Prop) : Prop :=
  ∀ s r c' s', s.rows = rows → c.sealed = false → (m c).RunsAlone s (r, c') s' →
    ∃ events, Granted rows c c' s s' events ∧
      match r with
      | .ok a => s'.faults .find = s.faults .find ∧ P a c' (rows.grants events)
      | .error _ => s.faults .find ≠ []

namespace Obtains

theorem mono (h : Obtains rows m c P) (hPQ : ∀ a c' l, P a c' l → Q a c' l) :
    Obtains rows m c Q := by
  intro s r c' s' hrows hopen hrun
  obtain ⟨events, hgranted, hr⟩ := h s r c' s' hrows hopen hrun
  refine ⟨events, hgranted, ?_⟩
  cases r
  case error => exact hr
  case ok a => exact ⟨hr.1, hPQ a c' _ hr.2⟩

theorem pure {a : α} (h : P a c []) : Obtains rows (pure a) c P := by
  intro s r c' s' hrows hopen hrun
  obtain ⟨heq, rfl⟩ := hrun
  cases heq
  exact ⟨[], .nothing hrows hopen, rfl, h⟩

theorem bind (hm : Obtains rows m c P)
    (hf : ∀ a c' l, P a c' l → Obtains rows (f a) c' fun b c'' l' => R b c'' (l ++ l')) :
    Obtains rows (m >>= f) c R := by
  intro s r c'' s'' hrows hopen hrun
  rw [bind_apply] at hrun
  obtain ⟨⟨r', c'⟩, s', hfirst, hrest⟩ := hrun.of_bind
  obtain ⟨events, hgranted, hr'⟩ := hm s r' c' s' hrows hopen hfirst
  cases r'
  case error =>
    obtain ⟨heq, rfl⟩ := hrest
    cases heq
    exact ⟨events, hgranted, hr'⟩
  case ok a =>
    obtain ⟨hfaults, hP⟩ := hr'
    obtain ⟨events', hgranted', hr⟩ :=
      hf a c' _ hP s' r c'' s'' hgranted.rows_eq hgranted.opened hrest
    refine ⟨events ++ events', hgranted.trans hgranted' hfaults, ?_⟩
    cases r
    case error => exact hfaults ▸ hr
    case ok b =>
      rw [Rows.grants_append]
      exact ⟨hr.1.trans hfaults, hr.2⟩

-- What is done last obtains nothing more.
theorem bind_pure {b : α → β} (hm : Obtains rows m c fun a c' l => R (b a) c' l) :
    Obtains rows (m >>= fun a => Pure.pure (b a)) c R :=
  hm.bind fun a c' l h => .pure (by rwa [List.append_nil])

theorem log {level : Level} {message : String} {P : Unit → Context → List Grant → Prop}
    (h : P () c []) : Obtains rows (log level message) c P := by
  intro s r c' s' hrows hopen hrun
  obtain ⟨heq, rfl⟩ := RunsAlone.after_log hrun
  cases heq
  exact ⟨[], .nothing hrows hopen, rfl, h⟩

-- A probe comes to hold nothing.
theorem probe {P : Option Row → Context → List Grant → Prop}
    (hknown : ∀ found, c.knownSingle? finder = some found → P found c [])
    (hasked : c.knownSingle? finder = none → P (rows.lookup finder) c []) :
    Obtains rows (probe finder) c P := by
  intro s r c' s' hrows hopen hrun
  cases probe_alone hrun
  case known a h => exact ⟨[], .nothing hrows hopen, rfl, hknown a h⟩
  case prevented hsealed => rw [hopen] at hsealed; cases hsealed
  case found h _ ha =>
    cases ha
    subst hrows
    refine ⟨[.probe c.tx finder], ⟨rfl, rfl, hopen, rfl, fun _ => rfl⟩, rfl, hasked h⟩
  case failed ha => cases ha

theorem lockFind {P : Option Row → Context → List Grant → Prop}
    (hknown : ∀ found, c.lockedAnswer? kind finder = some found → P found c [])
    (hasked : c.lockedAnswer? kind finder = none → P (rows.lookup finder)
      (c.learnLocked kind finder (rows.lookup finder)) (rows.grant kind finder)) :
    Obtains rows (lockFind kind finder) c P := by
  intro s r c' s' hrows hopen hrun
  cases lockFind_alone hrun
  case known a h => exact ⟨[], .nothing hrows hopen, rfl, hknown a h⟩
  case prevented hsealed => rw [hopen] at hsealed; cases hsealed
  case found h _ ha =>
    obtain ⟨hquiet, heq⟩ | ⟨_, _, -, heq⟩ := s.find_cases c.tx kind finder
    all_goals cases heq.symm.trans ha
    subst hrows
    have hgrants : s.rows.grants [.find c.tx kind finder] = s.rows.grant kind finder :=
      List.flatMap_singleton ..
    refine ⟨[.find c.tx kind finder], ?_, by rw [Store.asked_faults], ?_⟩
    · exact ⟨Store.asked_rows, Store.asked_events, Context.learnLocked_sealed.trans hopen,
        hgrants ▸ Context.learnLocked_locks, fun hqueued => absurd hquiet hqueued⟩
    · rw [hgrants]
      exact hasked h
  case failed ha =>
    obtain ⟨-, heq⟩ | ⟨_, _, hqueued, heq⟩ := s.find_cases c.tx kind finder
    all_goals cases heq.symm.trans ha
    refine ⟨[], ⟨hrows, (List.append_nil _).symm, hopen, rfl, fun _ => rfl⟩, ?_⟩
    simp [hqueued]

theorem lockList {P : List Row → Context → List Grant → Prop}
    (hknown : ∀ found, c.lockedList? kind finder = some found → P found c [])
    (hasked : c.lockedList? kind finder = none → P (rows.lookupList finder)
      (c.learnLockedList kind finder (rows.lookupList finder)) (rows.grantList kind finder)) :
    Obtains rows (lockList kind finder) c P := by
  intro s r c' s' hrows hopen hrun
  cases lockList_alone hrun
  case known a h => exact ⟨[], .nothing hrows hopen, rfl, hknown a h⟩
  case prevented hsealed => rw [hopen] at hsealed; cases hsealed
  case found h _ ha =>
    obtain ⟨hquiet, heq⟩ | ⟨_, _, -, heq⟩ := s.findList_cases c.tx kind finder
    all_goals cases heq.symm.trans ha
    subst hrows
    have hgrants : s.rows.grants [.findList c.tx kind finder] = s.rows.grantList kind finder :=
      List.flatMap_singleton ..
    refine ⟨[.findList c.tx kind finder], ?_, by rw [Store.listed_faults], ?_⟩
    · exact ⟨Store.listed_rows, Store.listed_events, Context.learnLockedList_sealed.trans hopen,
        hgrants ▸ Context.learnLockedList_locks, fun hqueued => absurd hquiet hqueued⟩
    · rw [hgrants]
      exact hasked h
  case failed ha =>
    obtain ⟨-, heq⟩ | ⟨_, _, hqueued, heq⟩ := s.findList_cases c.tx kind finder
    all_goals cases heq.symm.trans ha
    refine ⟨[], ⟨hrows, (List.append_nil _).symm, hopen, rfl, fun _ => rfl⟩, ?_⟩
    simp [hqueued]

-- A loop is granted what its rounds are granted.
theorem mapM {Good : Grant → Prop} {as : List α}
    (hf : ∀ a c, Obtains rows (f a) c fun _ _ l => ∀ grant ∈ l, Good grant) :
    Obtains rows (as.mapM f) c fun _ _ l => ∀ grant ∈ l, Good grant := by
  induction as generalizing c
  case nil => exact .pure nofun
  case cons a as ih =>
    rw [List.mapM_cons]
    refine (hf a c).bind fun _ c' l hl => bind_pure (ih.mono fun _ _ l' hl' grant hmem => ?_)
    exact (List.mem_append.mp hmem).elim (hl grant) (hl' grant)

theorem forM {as : List α} {f : α → Action PUnit}
    (hf : ∀ a, Obtains rows (f a) c fun _ c' l => c' = c ∧ l = []) :
    Obtains rows (as.forM f) c fun _ c' l => c' = c ∧ l = [] := by
  induction as
  case nil => exact .pure ⟨rfl, rfl⟩
  case cons a as ih =>
    refine (hf a).bind fun _ c' l h => ?_
    obtain ⟨rfl, rfl⟩ := h
    exact ih

end Obtains

end Action

-- An action that is run on a new context, with nobody beside it, over a store of these rows.
structure FreshRun {α : Type} (rows : Rows) (m : Action α) where
  tx : TxId
  before : World
  after : World
  result : Except Fault α
  context : Context
  rows_eq : before.store.rows = rows
  runs : (m (.new tx)).run before = some ((result, context), after)

namespace FreshRun

open NamespaceService.Action

variable {α β : Type} {rows : Rows} {m : Action α} (a : FreshRun rows m)
  {P : α → Context → List Grant → Prop}

-- All that was asked of the store.
def events : List Event :=
  a.after.store.events.drop a.before.store.events.length

def grants : List Grant :=
  rows.grants a.events

-- The nodes that were locked and how strongly, in the order in which they were locked.
def acquired : List (Node × LockKind) :=
  rows.nodesOf a.grants

def nodes : List Node :=
  a.acquired.map Prod.fst

-- No lookup is refused.
def Calm : Prop :=
  a.before.store.faults .find = []

theorem exists_run (hm : Stage.Straight m) (tx : TxId) (w : World) (hrows : w.store.rows = rows) :
    ∃ a : FreshRun rows m, a.tx = tx ∧ a.before = w := by
  have hplain : (m (.new tx)).Only Request.Plain :=
    (hm.reads _).mono (fun _ => Request.Reads.plain) fun _ _ => trivial
  obtain ⟨⟨r, c⟩, s', halone⟩ := exists_runsAlone hplain w.store
  obtain ⟨w', hrun, -⟩ := halone.run
  exact ⟨⟨tx, w, w', r, c, hrows, hrun⟩, rfl, rfl⟩

theorem alone (hm : Stage.Straight m) :
    (m (.new a.tx)).RunsAlone a.before.store (a.result, a.context) a.after.store :=
  have hplain : (m (.new a.tx)).Only Request.Plain :=
    (hm.reads _).mono (fun _ => Request.Reads.plain) fun _ _ => trivial
  .of_run hplain a.runs

-- A run that comes to this is a run from the start.
theorem exists_checked (tx : TxId) (w : World) (hrows : w.store.rows = rows)
    (check : Except Fault α → Context → Store → Bool)
    (h : ((m (.new tx)).run w).any fun x => check x.1.1 x.1.2 x.2.store) :
    ∃ a : FreshRun rows m, a.tx = tx ∧ a.before = w ∧ check a.result a.context a.after.store := by
  obtain ⟨⟨⟨r, c⟩, w'⟩, hrun, hcheck⟩ := (Option.any_eq_true ..).mp h
  exact ⟨⟨tx, w, w', r, c, hrows, hrun⟩, rfl, rfl, hcheck⟩

variable {a}

-- An action that ends at once leaves everything as it is.
theorem of_done {r : Except Fault α} (h : m (.new a.tx) = .done (r, .new a.tx)) :
    a.result = r ∧ a.context = .new a.tx ∧ a.after = a.before := by
  have hrun := a.runs
  rw [h, run_done, Option.some.injEq, Prod.mk.injEq, Prod.mk.injEq] at hrun
  exact ⟨hrun.1.1.symm, hrun.1.2.symm, hrun.2.symm⟩

theorem grants_of_events {events : List Event}
    (h : a.after.store.events = a.before.store.events ++ events) : a.grants = rows.grants events := by
  rw [grants, FreshRun.events, h, List.drop_left]

-- What the action obtains, the run has obtained.
theorem obtained (hm : Stage.Straight m) (h : Obtains rows m (.new a.tx) P) :
    a.context.locks = LockSet.recordAll .empty a.grants ∧
      ((∃ x, a.result = .ok x ∧ P x a.context a.grants) ∨
        (∃ fault, a.result = .error fault) ∧ ¬a.Calm ∧ a.grants = []) := by
  obtain ⟨events, hgranted, hr⟩ := h _ _ _ _ a.rows_eq rfl (a.alone hm)
  have hgrants : a.grants = rows.grants events := grants_of_events hgranted.events_eq
  refine ⟨hgrants ▸ hgranted.locks_eq, ?_⟩
  cases hresult : a.result
  all_goals rw [hresult] at hr
  case error fault => exact .inr ⟨⟨fault, rfl⟩, hr, hgrants ▸ hgranted.refused hr⟩
  case ok x => exact .inl ⟨x, rfl, hgrants ▸ hr.2⟩

theorem mem_acquired_iff {n : Node} {kind : LockKind} :
    (n, kind) ∈ a.acquired ↔ .node n ∈ rows.toList ∧ (.node n.id, kind) ∈ a.grants :=
  Rows.mem_nodesOf_iff

section

variable (hlocks : a.context.locks = LockSet.recordAll .empty a.grants) {n : Node} {kind : LockKind}

include hlocks

-- A node is held if and as strongly as it was locked.
theorem holds_iff (hn : .node n ∈ rows.toList) : a.context.locks.holds (.node n.id) kind ↔
    ∃ held, (n, held) ∈ a.acquired ∧ kind ≤ held := by
  rw [hlocks, LockSet.holds_recordAll_iff, or_iff_right LockSet.not_holds_empty]
  constructor
  case mp =>
    rintro ⟨⟨_, held⟩, hgrant, rfl, hle⟩
    exact ⟨held, mem_acquired_iff.mpr ⟨hn, hgrant⟩, hle⟩
  case mpr =>
    rintro ⟨held, hmem, hle⟩
    exact ⟨_, (mem_acquired_iff.mp hmem).2, rfl, hle⟩

theorem exists_holds_iff (hn : .node n ∈ rows.toList) :
    (∃ kind, a.context.locks.holds (.node n.id) kind) ↔ n ∈ a.nodes := by
  simp only [holds_iff hlocks hn]
  constructor
  case mp =>
    rintro ⟨_, held, hmem, -⟩
    exact List.mem_map.mpr ⟨_, hmem, rfl⟩
  case mpr =>
    intro hmem
    obtain ⟨⟨_, held⟩, hgrant, rfl⟩ := List.mem_map.mp hmem
    exact ⟨held, held, hgrant, LockKind.le_refl held⟩

-- Locked once, a node keeps its kind.
theorem kindOf?_of_once (honce : (a.nodes.map Node.id).Nodup) (hmem : (n, kind) ∈ a.acquired) :
    a.context.locks.kindOf? (.node n.id) = some kind := by
  refine LockSet.kindOf?_eq_iff.mpr fun weaker => ?_
  rw [holds_iff hlocks (mem_acquired_iff.mp hmem).1]
  constructor
  case mpr =>
    rintro ⟨_, heq, hle⟩
    cases heq
    exact ⟨kind, hmem, hle⟩
  case mp =>
    rintro ⟨held, hheld, hle⟩
    rw [nodes, List.map_map] at honce
    cases List.inj_on_of_nodup_map honce hheld hmem rfl
    exact ⟨kind, rfl, hle⟩

-- Runs that lock the same nodes hold them alike.
theorem kindOf?_eq_of_acquired {m' : Action β} {b : FreshRun rows m'}
    (hlocks' : b.context.locks = LockSet.recordAll .empty b.grants) (hsame : b.acquired = a.acquired)
    (hn : .node n ∈ rows.toList) :
    b.context.locks.kindOf? (.node n.id) = a.context.locks.kindOf? (.node n.id) := by
  refine LockSet.kindOf?_eq_iff.mpr fun kind => ?_
  rw [holds_iff hlocks' hn, hsame, ← holds_iff hlocks hn, LockSet.holds_iff]

end

-- A store of these rows, of which nothing has been asked yet.
def unused (rows : Rows) : World :=
  { store := .ofRows rows }

theorem unused_rows (rows : Rows) : (unused rows).store.rows = rows :=
  rfl

theorem calm_of_unused (h : a.before = unused rows) : a.Calm := by
  rw [Calm, h]
  rfl

theorem events_of_unused (h : a.before = unused rows) : a.events = a.after.store.events := by
  rw [events, h]
  rfl

end FreshRun

end NamespaceService
