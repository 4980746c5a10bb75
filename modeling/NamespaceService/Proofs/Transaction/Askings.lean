import NamespaceService.Proofs.Transaction.Learning

namespace NamespaceService

open Program

namespace Event

-- A lookup at this kind or at a stronger one.
def reaches (kind : LockKind) (event : Event) : Bool :=
  event.acquisition?.any (kind ≤ ·.1)

end Event

-- A lock that is granted on a row which is there is one that the row was given under.
theorem Rows.given_of_granted {rows : Rows} {event : Event} {grant : Grant} {row : Row}
    {kind : LockKind} (h : grant ∈ rows.granted event) (hle : kind ≤ grant.2)
    (hrow : rows.find? grant.1 = some row) : event.reaches kind ∧ row ∈ rows.given event := by
  cases event
  case find tx held finder =>
    obtain ⟨key, hkey, rfl⟩ := List.mem_map.mp h
    refine ⟨by simpa [Event.reaches, Event.acquisition?] using hle, ?_⟩
    rw [Option.mem_toList] at hkey
    rw [given, Option.mem_toList]
    cases hlookup : rows.lookup finder
    case some found =>
      rw [hlookup] at hkey
      cases hkey
      rw [SortedBy.find?_of_mem (mem_of_lookup hlookup).1] at hrow
      exact hrow
    case none =>
      rw [hlookup] at hkey
      rw [lookup_of_key? hkey] at hlookup
      cases hlookup.symm.trans hrow
  case findList tx held finder =>
    obtain ⟨found, hfound, rfl⟩ := List.mem_map.mp h
    refine ⟨by simpa [Event.reaches, Event.acquisition?] using hle, ?_⟩
    rw [SortedBy.find?_of_mem (mem_lookupList_iff.mp hfound).1] at hrow
    cases hrow
    exact hfound
  all_goals cases h

namespace Context

variable {c c' : Context} {found : List Row}

-- What is known of rows after these were read.
def Reads (found : List Row) (c c' : Context) : Prop :=
  ∀ key row, c'.rows key = some row → c.rows key = some row ∨ row.key = key ∧ row ∈ found

theorem foldl_remember_reads : Reads found c (found.foldl remember c) := by
  induction found generalizing c
  case nil => exact fun _ _ => .inl
  case cons first found ih =>
    intro key row hrow
    obtain hrow | ⟨hkey, hmem⟩ := ih key row hrow
    · obtain ⟨rfl, rfl⟩ | ⟨-, hrow⟩ := row_of_remember hrow
      · exact .inr ⟨rfl, List.mem_cons_self⟩
      · exact .inl hrow
    · exact .inr ⟨hkey, List.mem_cons_of_mem _ hmem⟩

theorem Kept.reads (h : Kept found c c') : Reads found c c' :=
  fun key row hrow => foldl_remember_reads key row (h.rows ▸ hrow)

end Context

namespace Session

namespace Entry

-- The locks that a lookup under a lock was granted by the store.
def grants (x : Entry) : List Grant :=
  if x.step.takesLock then x.rows.grants x.asked else []

-- The list, if the step has read it.
def list? (finder : Finder) (x : Entry) : Option (List Row) :=
  if x.asked.any (·.list? = some finder) then some (x.rows.lookupList finder) else none

end Entry

-- The list as it was read last.
def lastList? (finder : Finder) : List Entry → Option (List Row)
  | [] => none
  | x :: xs => (lastList? finder xs).or (x.list? finder)

-- What the steps have made of the context.
structure Traces (xs : List Entry) (c c' : Context) : Prop where
  locks : c'.locks = c.locks.recordAll (xs.flatMap Entry.grants)
  list {finder : Finder} :
    c'.lists finder = ((lastList? finder xs).map (List.map Row.key)).or (c.lists finder)
  row {key : Key} {row : Row} : c'.rows key = some row →
    c.rows key = some row ∨ row.key = key ∧ row ∈ xs.flatMap Entry.given

namespace Traces

variable {x : Entry} {xs : List Entry} {c c' c'' : Context}

theorem nil : Traces [] c c where
  locks := rfl
  list := rfl
  row := .inl

theorem cons (h : Traces [x] c c') (h' : Traces xs c' c'') : Traces (x :: xs) c c'' where
  locks := by
    rw [h'.locks, h.locks, List.flatMap_singleton, List.flatMap_cons, LockSet.recordAll_append]
  list {finder} := by
    rw [h'.list, h.list, lastList?, lastList?, lastList?, Option.none_or, Option.map_or,
      Option.or_assoc]
  row {key row} hrow := by
    rw [List.flatMap_cons, List.mem_append]
    obtain hbefore | ⟨hkey, hlater⟩ := h'.row hrow
    · refine (h.row hbefore).imp_right fun ⟨hkey, hfirst⟩ => ⟨hkey, .inl ?_⟩
      rwa [List.flatMap_singleton] at hfirst
    · exact .inr ⟨hkey, .inr hlater⟩

-- Nothing was asked, and nothing is known that was not known before.
theorem of_unasked (h : x.asked = []) (hlocks : c'.locks = c.locks) (hlists : c'.lists = c.lists)
    (hrows : c'.rows = c.rows) : Traces [x] c c' where
  locks := by
    have hgrants : x.grants = [] := by
      rw [Entry.grants, h]
      exact ite_self _
    rw [List.flatMap_singleton, hgrants, hlocks]
    rfl
  list {finder} := by simp [lastList?, Entry.list?, h, hlists]
  row hrow := .inl (hrows ▸ hrow)

theorem of_comes (h : x.Comes c c') : Traces [x] c c' := by
  cases h
  case known hevents => exact of_unasked (Entry.asked_nil hevents) rfl rfl rfl
  case failed hevents => exact of_unasked (Entry.asked_nil hevents) rfl rfl rfl
  case answered event _ _ ho hcall _ _ hevents =>
    have hasked := Entry.asked_of_events hevents
    have hgiven : x.given = x.rows.given event := by
      rw [Entry.given, hasked, List.flatMap_singleton]
    refine ⟨?locks, ?list, fun {key row} hrow => ?row⟩
    case row =>
      rw [List.flatMap_singleton, hgiven]
      exact (Context.Kept.of_learn hcall).reads key row hrow
    case locks =>
      rw [List.flatMap_singleton, Entry.grants, hasked, Rows.grants, List.flatMap_singleton]
      exact ContextStep.learn_locks hcall ho
    case list =>
      intro finder
      rw [ContextStep.learn_list hcall, lastList?, lastList?, Option.none_or, Entry.list?, hasked]
      by_cases hlist : event.list? = some finder <;> simp [hlist]

theorem of_step (hstep : x.step.finds ∨ x.step = .endLockPhase)
    (hrun : (x.step.run c).run x.before = some ((x.reply, c'), x.after)) : Traces [x] c c' := by
  obtain hfinds | hends := hstep
  · exact of_comes (Entry.comes hfinds hrun)
  · obtain ⟨rfl, -, hasked⟩ := Entry.eq_written (.inr hends) hrun
    rw [hends]
    exact of_unasked hasked rfl rfl rfl

end Traces

-- What lookups make of a context, before the lock phase ends and after it.
theorem Transcript.traces {xs : List Entry} {c c' : Context} (h : Transcript c xs c')
    (hsteps : ∀ x ∈ xs, x.step.finds ∨ x.step = .endLockPhase) : Traces xs c c' := by
  induction h
  case nil => exact .nil
  case cons hrun _ ih =>
    obtain ⟨hx, hlater⟩ := List.forall_mem_cons.mp hsteps
    exact .cons (.of_step hx hrun) (ih hlater)

variable {xs : List Entry} {x : Entry} {c c' : Context} {tx : TxId} {kind : LockKind}
  {finder : Finder} {key : Key} {row : Row}

-- The store was asked for the row, and gave it.
def RowAsked (xs : List Entry) (kind : LockKind) (row : Row) : Prop :=
  ∃ y ∈ xs, ∃ event ∈ y.asked, event.reaches kind ∧ row ∈ y.rows.given event

def ListAsked (xs : List Entry) (kind : LockKind) (finder : Finder) : Prop :=
  ∃ y ∈ xs, ∃ event ∈ y.asked, event.reaches kind ∧ event.list? = some finder

theorem listAsked_append_iff {ys : List Entry} :
    ListAsked (xs ++ ys) kind finder ↔ ListAsked xs kind finder ∨ ListAsked ys kind finder := by
  simp [ListAsked, or_and_right, exists_or]

theorem not_listAsked_of_nil (h : x.asked = []) : ¬ListAsked [x] kind finder := by
  simp [ListAsked, h]

-- The key was locked.
def KeyLocked (xs : List Entry) (kind : LockKind) (key : Key) : Prop :=
  ∃ grant ∈ xs.flatMap Entry.grants, grant.1 = key ∧ kind ≤ grant.2

-- The list was read, and each of its rows was locked, by whatever lookup.
def RowsLocked (xs : List Entry) (kind : LockKind) (finder : Finder) : Prop :=
  ∃ found, lastList? finder xs = some found ∧ ∀ row ∈ found, KeyLocked xs kind row.key

instance {ys : List Entry} : Decidable (ListAsked ys kind finder) :=
  inferInstanceAs (Decidable (∃ y ∈ ys, ∃ event ∈ y.asked, _))

instance {ys : List Entry} : Decidable (KeyLocked ys kind key) :=
  inferInstanceAs (Decidable (∃ grant ∈ ys.flatMap Entry.grants, _))

instance {ys : List Entry} : Decidable (RowsLocked ys kind finder) :=
  decidable_of_iff (∃ found ∈ lastList? finder ys, ∀ row ∈ found, KeyLocked ys kind row.key) Iff.rfl

theorem Traces.holds_iff (h : Traces xs (.new tx) c) :
    c.locks.holds key kind ↔ KeyLocked xs kind key := by
  rw [h.locks, LockSet.holds_recordAll_iff]
  exact or_iff_right LockSet.not_holds_empty

theorem Traces.lockedList?_isSome_iff (h : Traces xs (.new tx) c) :
    (c.lockedList? kind finder).isSome ↔ RowsLocked xs kind finder := by
  have hlist : c.lists finder = (lastList? finder xs).map (List.map Row.key) := by
    rw [h.list]
    exact Option.or_none
  rw [Context.lockedList?, hlist, RowsLocked]
  cases lastList? finder xs
  case none => simp
  case some found => simp [← h.holds_iff]

-- A row that is answered under a lock has been read, and its key has been locked as strongly. If it was
-- there when the key was locked, the store gave it then.
theorem Traces.row_asked (h : Traces xs (.new tx) c)
    (hanswer : c.lockedAnswer? kind finder = some (some row)) :
    RowAsked xs kind row ∨ row ∈ xs.flatMap Entry.given ∧
      ∃ y ∈ xs, KeyLocked [y] kind row.key ∧ y.rows.find? row.key ≠ some row := by
  obtain ⟨key, hholds, hrow⟩ : ∃ key, c.locks.holds key kind ∧ c.rows key = some row := by
    obtain ⟨key, hholds, -, hrow⟩ | ⟨key, _, hholds, -, hrow, heq⟩ :=
      Context.lockedAnswer?_cases hanswer
    · exact ⟨key, hholds, hrow.symm⟩
    · cases heq
      exact ⟨key, hholds, hrow⟩
  obtain ⟨rfl, hread⟩ := (h.row hrow).resolve_left nofun
  obtain ⟨grant, hgrant, hkey, hle⟩ := h.holds_iff.mp hholds
  obtain ⟨y, hy, hmem⟩ := List.mem_flatMap.mp hgrant
  by_cases hthere : y.rows.find? row.key = some row
  case neg => exact .inr ⟨hread, y, hy, ⟨grant, by simpa using hmem, hkey, hle⟩, hthere⟩
  case pos =>
    have hgranted : grant ∈ y.rows.grants y.asked := by
      rw [Entry.grants] at hmem
      split at hmem
      case isTrue => exact hmem
      case isFalse => cases hmem
    obtain ⟨event, hasked, hevent⟩ := List.mem_flatMap.mp hgranted
    exact .inl ⟨y, hy, event, hasked, Rows.given_of_granted hevent hle (hkey ▸ hthere)⟩

-- A row that is given under a lock is one that was asked for now, or one that is known.
theorem Traces.row_asked_of_comes (h : Traces xs (.new tx) c) (hcomes : x.Comes c c')
    (hstep : x.step = .lockFind kind finder) (hreply : x.reply = .ok (.row (some row))) :
    RowAsked (xs ++ [x]) kind row ∨ row ∈ xs.flatMap Entry.given ∧
      ∃ y ∈ xs, KeyLocked [y] kind row.key ∧ y.rows.find? row.key ≠ some row := by
  cases hcomes
  case known hknown hsame _ =>
    rw [hstep] at hknown
    obtain ⟨found, hanswer, rfl⟩ := Option.map_eq_some_iff.mp hknown
    cases hsame.symm.trans hreply
    refine (h.row_asked hanswer).imp_left ?_
    rintro ⟨y, hy, hasked⟩
    exact ⟨y, List.mem_append_left _ hy, hasked⟩
  case failed herror _ => cases herror.symm.trans hreply
  case answered hcall hdirect hsame hevents =>
    rw [hstep] at hcall hdirect
    cases hcall
    cases hdirect
    have hrow : x.rows.lookup finder = some row := by simpa using hsame.symm.trans hreply
    refine .inl ⟨x, by simp, _, Entry.asked_of_events hevents ▸ List.mem_singleton_self _, ?_, ?_⟩
    · simpa [Event.reaches, Event.acquisition?] using LockKind.le_refl kind
    · simpa [Rows.given] using hrow

-- A list that is given is asked for now, or its rows are locked.
theorem Traces.list_unasked_iff_of_comes (h : Traces xs (.new tx) c) (hcomes : x.Comes c c')
    (hstep : x.step = .lockList kind finder) :
    (∃ found, x.reply = .ok (.rows found)) ∧ ¬ListAsked (xs ++ [x]) kind finder ↔
      RowsLocked xs kind finder ∧ ¬ListAsked xs kind finder := by
  rw [← h.lockedList?_isSome_iff, listAsked_append_iff]
  cases hcomes
  case known hknown hsame hevents =>
    rw [hstep] at hknown
    obtain ⟨found, hanswer, rfl⟩ := Option.map_eq_some_iff.mp hknown
    rw [or_iff_left (not_listAsked_of_nil (Entry.asked_nil hevents))]
    simp [hsame, hanswer]
  case failed hunknown herror _ =>
    rw [hstep] at hunknown
    have hnone : c.lockedList? kind finder = none := Option.map_eq_none_iff.mp hunknown
    simp [herror, hnone]
  case answered hunknown _ hcall _ _ hevents =>
    rw [hstep] at hunknown hcall
    cases hcall
    have hnone : c.lockedList? kind finder = none := Option.map_eq_none_iff.mp hunknown
    have hasked : ListAsked [x] kind finder :=
      ⟨x, by simp, _, Entry.asked_of_events hevents ▸ List.mem_singleton_self _,
        by simpa [Event.reaches, Event.acquisition?] using LockKind.le_refl kind, rfl⟩
    simp [hnone, hasked]

-- A row that is given under a lock was asked for as strongly, or it was not there when its key was
-- locked. A list is given that was never asked for as strongly if and only if it was read and each of
-- its rows was locked.
theorem Transcript.exists_asked (h : Transcript (.new tx) (xs ++ [x]) c)
    (hsteps : ∀ y ∈ xs ++ [x], y.step.finds ∨ y.step = .endLockPhase) :
    (∀ kind finder row, x.step = .lockFind kind finder → x.reply = .ok (.row (some row)) →
      RowAsked (xs ++ [x]) kind row ∨ row ∈ xs.flatMap Entry.given ∧
        ∃ y ∈ xs, KeyLocked [y] kind row.key ∧ y.rows.find? row.key ≠ some row) ∧
    ∀ kind finder, x.step = .lockList kind finder →
      ((∃ found, x.reply = .ok (.rows found)) ∧ ¬ListAsked (xs ++ [x]) kind finder ↔
        RowsLocked xs kind finder ∧ ¬ListAsked xs kind finder) := by
  obtain ⟨c₁, hbefore, hlast⟩ := h.of_append
  have htraces := hbefore.traces (List.forall_mem_append.mp hsteps).1
  cases hlast
  case cons hrun hnil =>
  have hcomes (hfinds : x.step.finds) := Entry.comes hfinds hrun
  constructor
  case left =>
    intro kind finder row hstep
    exact htraces.row_asked_of_comes (hcomes (by rw [hstep]; rfl)) hstep
  case right =>
    intro kind finder hstep
    exact htraces.list_unasked_iff_of_comes (hcomes (by rw [hstep]; rfl)) hstep

-- The entry of the directory is not locked yet, so the list is asked for again.
theorem exists_asked_oneFile : ∃ x y c, Transcript (.new 1) [x, y] c ∧
    x.step = .findList (.children ⟨1⟩) ∧ y.step = .lockList .write (.children ⟨1⟩) ∧
    (∃ found, y.reply = .ok (.rows found)) ∧ ListAsked [x, y] .write (.children ⟨1⟩) := by
  obtain ⟨xs, c, h, hsteps, hcheck⟩ := Transcript.exists_checked
    [.findList (.children ⟨1⟩), .lockList .write (.children ⟨1⟩)] (.new 1)
    { store := .ofRows ContextStep.oneFile }
    (fun xs _ => (xs.map Entry.rows?).getLast? =
        some (some [.node ⟨⟨2⟩, ⟨1⟩, "f", .file, []⟩]) &&
      !decide (RowsLocked (xs.take 1) .write (.children ⟨1⟩))) (by decide +kernel)
  obtain ⟨x, y, rfl, hread, hlock⟩ := exists_pair hsteps
  simp only [Bool.and_eq_true, decide_eq_true_eq, Bool.not_eq_true', decide_eq_false_iff_not] at hcheck
  obtain ⟨hreply, hunlocked⟩ := hcheck
  have hsplit : Transcript (.new 1) ([x] ++ [y]) c := h
  have hfinds : ∀ z ∈ [x] ++ [y], z.step.finds ∨ z.step = .endLockPhase := by
    simp [hread, hlock, ContextStep.finds]
  have hfound : ∃ found, y.reply = .ok (.rows found) :=
    ⟨_, Entry.rows?_eq_some_iff.mp (Option.some.inj hreply)⟩
  refine ⟨x, y, c, h, hread, hlock, hfound, ?_⟩
  by_contra hnot
  exact hunlocked (((hsplit.exists_asked hfinds).2 _ _ hlock).mp ⟨hfound, hnot⟩).1

def emptyDirectory : Rows :=
  .ofList [.node .root, .node ⟨⟨1⟩, .root, "a", .directory, []⟩]

-- The empty list is locked for writing without asking.
theorem emptyDirectory_unasked : ∃ x y c, Transcript (.new 1) [x, y] c ∧
    x.step = .findList (.children ⟨1⟩) ∧ y.step = .lockList .write (.children ⟨1⟩) ∧
    y.reply = .ok (.rows []) ∧ ¬ListAsked [x, y] .write (.children ⟨1⟩) := by
  obtain ⟨xs, c, h, hsteps, hcheck⟩ := Transcript.exists_checked
    [.findList (.children ⟨1⟩), .lockList .write (.children ⟨1⟩)] (.new 1)
    { store := .ofRows emptyDirectory }
    (fun xs _ => (xs.map Entry.rows?).getLast? = some (some []) &&
      !decide (ListAsked xs .write (.children ⟨1⟩))) (by decide +kernel)
  obtain ⟨x, y, rfl, hread, hlock⟩ := exists_pair hsteps
  simp only [Bool.and_eq_true, decide_eq_true_eq, Bool.not_eq_true', decide_eq_false_iff_not] at hcheck
  obtain ⟨hreply, hunasked⟩ := hcheck
  exact ⟨x, y, c, h, hread, hlock, Entry.rows?_eq_some_iff.mp (Option.some.inj hreply), hunasked⟩

end Session

end NamespaceService
