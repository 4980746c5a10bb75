import NamespaceService.Proofs.Namespace.Modes
import NamespaceService.Proofs.Namespace.OrderedRequests
import NamespaceService.Proofs.Store.Exclusion

namespace NamespaceService

open Program

-- How a row is come to for the first time.
def manner? (stray : Option Key) (l : List (Key × Bool)) (key : Key) : Option Manner :=
  (l.find? (·.1 = key)).map (manner stray)

section

variable {rows : Rows} {stray : Option Key} {categories : List Category} {l : List (Key × Bool)}
  {x : Key × Bool} {e f key : Key}

theorem manner?_cons_self : manner? stray (x :: l) x.1 = some (manner stray x) := by
  rw [manner?, List.find?_cons_of_pos (by simp)]
  rfl

theorem manner?_cons_of_ne (h : x.1 ≠ key) : manner? stray (x :: l) key = manner? stray l key := by
  rw [manner?, List.find?_cons_of_neg (by simpa using h), manner?]

theorem manner?_of_mem (h : key ∈ l.map Prod.fst) :
    ∃ y ∈ l, y.1 = key ∧ manner? stray l key = some (manner stray y) := by
  obtain ⟨x, hx, rfl⟩ := List.mem_map.mp h
  obtain ⟨y, hy⟩ : ∃ y, l.find? (·.1 = x.1) = some y :=
    Option.isSome_iff_exists.mp (List.find?_isSome.mpr ⟨x, hx, by simp⟩)
  exact ⟨y, List.mem_of_find?_eq_some hy, by simpa using List.find?_some hy, by rw [manner?, hy]; rfl⟩

-- Of two rows, the one that is come to first has the lower rank.
theorem Rows.InOrder.rank_lt (h : rows.InOrder stray categories l) (hf : f ∈ l.map Prod.fst)
    (hlt : (l.map Prod.fst).idxOf e < (l.map Prod.fst).idxOf f) :
    ∃ m m' rank rank', manner? stray l e = some m ∧ manner? stray l f = some m' ∧
      rows.Ranks e m rank ∧ rows.Ranks f m' rank' ∧ rank < rank' := by
  have hpairwise := h.pairwise
  clear h
  induction l
  case nil => cases hf
  case cons x l ih =>
    obtain ⟨hx, hpairwise⟩ := List.pairwise_cons.mp hpairwise
    rw [List.map_cons] at hf hlt
    have hne : f ≠ x.1 := by
      rintro rfl
      rw [List.idxOf_cons_self] at hlt
      cases hlt
    have hf := (List.mem_cons.mp hf).resolve_left hne
    rw [manner?_cons_of_ne hne.symm]
    by_cases heq : x.1 = e
    case pos =>
      subst heq
      obtain ⟨y, hy, rfl, hmanner⟩ := manner?_of_mem hf
      obtain heq | ⟨rank, rank', hrank, hrank', hlt⟩ := hx y hy
      · exact absurd heq.symm hne
      · exact ⟨_, _, rank, rank', manner?_cons_self, hmanner, hrank, hrank', hlt⟩
    case neg =>
      rw [List.idxOf_cons_ne _ heq, List.idxOf_cons_ne _ hne.symm] at hlt
      rw [manner?_cons_of_ne heq]
      exact ih hf (Nat.lt_of_succ_lt_succ hlt) hpairwise

end

open NamespaceService.Action

-- An acquisition with nobody beside it.
structure Acquisition (rows : Rows) (requests : RequestSet) where
  tx : TxId
  before : Store
  after : Store
  resolved : Resolved
  context : Context
  rows_eq : before.rows = rows
  runs : (acquire requests (.new tx)).RunsAlone before (.ok resolved, context) after

namespace Acquisition

variable {rows : Rows} {requests requests' : RequestSet} (a : Acquisition rows requests)

-- What is locked for reading or writing, in the order in which it is come to.
def taken : List (Key × Bool) :=
  (a.after.events.drop a.before.events.length).flatMap rows.taken

def keys : List Key :=
  a.taken.map Prod.fst

def stray? : Option Key :=
  LockRequest.strayOf? requests.toList a.resolved

theorem taken_inOrder (hrows : rows.Hierarchy) :
    rows.InOrder a.stray? (requests.toList.map LockRequest.category) a.taken := by
  obtain ⟨-, -, events, hevents, hl⟩ :=
    acquire_takes hrows _ _ _ _ _ a.rows_eq (Context.Reflects.new rows a.tx) a.runs
  rw [taken, hevents, List.drop_left]
  exact hl

variable (b : Acquisition rows requests') {e f : Key}

-- Both come to the row in the same manner, if it is a node.
def Alike (key : Key) : Prop :=
  key.category = .node → manner? a.stray? a.taken key = manner? b.stray? b.taken key

theorem idxOf_lt (hrows : rows.Hierarchy) (hf : f ∈ a.keys) (he' : e ∈ b.keys)
    (halike : a.Alike b e) (halike' : a.Alike b f) (hlt : a.keys.idxOf e < a.keys.idxOf f) : b.keys.idxOf e < b.keys.idxOf f := by
  obtain ⟨m, m', rank, rank', hm, hm', hrank, hrank', hbefore⟩ := (a.taken_inOrder hrows).rank_lt hf hlt
  by_contra hnot
  obtain heq | hgt := (Nat.le_of_not_lt hnot).eq_or_lt
  · rw [(List.idxOf_inj he').mp heq.symm] at hlt
    exact Nat.lt_irrefl _ hlt
  · obtain ⟨n, n', rank₁, rank₁', hn, hn', hrank₁, hrank₁', hafter⟩ :=
      (b.taken_inOrder hrows).rank_lt he' hgt
    cases hrank'.unique_of_manner hrank₁ fun hnode =>
      Option.some.inj ((hm'.symm.trans (halike' hnode)).trans hn)
    cases hrank.unique_of_manner hrank₁' fun hnode =>
      Option.some.inj ((hm.symm.trans (halike hnode)).trans hn')
    exact List.lt_irrefl _ (List.lt_trans hbefore hafter)

-- Two rows that are come to in the same manner are come to in the same order.
theorem acquire_order (hrows : rows.Hierarchy) (he : e ∈ a.keys) (hf : f ∈ a.keys) (he' : e ∈ b.keys)
    (hf' : f ∈ b.keys) (halike : a.Alike b e) (halike' : a.Alike b f) :
    a.keys.idxOf e < a.keys.idxOf f ↔ b.keys.idxOf e < b.keys.idxOf f :=
  ⟨a.idxOf_lt b hrows hf he' halike halike',
    b.idxOf_lt a hrows hf' he (fun hnode => (halike hnode).symm) fun hnode => (halike' hnode).symm⟩

-- By name they are in another order than by id.
def siblings : Rows :=
  .ofList [.node .root, .node ⟨⟨1⟩, .root, "b", .directory, []⟩, .node ⟨⟨2⟩, .root, "a", .directory, []⟩,
    .register ⟨.nodeIdCounter, 2⟩, .register ⟨.blockIdCounter, 0⟩, .register ⟨.generationStamp, 1000⟩]

def start : Store :=
  (Store.ofRows siblings).begin.2

def nodesAt (paths : List String) (children : Bool) : RequestSet :=
  .ofList [.nodes .write (.paths paths children)]

theorem exists_acquisition (requests : RequestSet) (l : List (Key × Bool))
    (h : ((acquire requests (.new 1)).run { store := start }).any fun x =>
      x.1.1.toOption.map (LockRequest.strayOf? requests.toList) = some none &&
        (x.2.store.events.drop start.events.length).flatMap siblings.taken = l) :
    ∃ a : Acquisition siblings requests, a.stray? = none ∧ a.taken = l := by
  obtain ⟨⟨⟨r, c⟩, w⟩, hrun, hgood⟩ := (Option.any_eq_true ..).mp h
  simp only [Bool.and_eq_true, decide_eq_true_eq] at hgood
  obtain ⟨hstray, hl⟩ := hgood
  cases r
  case error => cases hstray
  case ok resolved =>
    have hplain : (acquire requests (.new 1)).Only Request.Plain :=
      (acquire_reads _).mono (fun _ => Request.Reads.plain) fun _ _ => trivial
    exact ⟨⟨1, start, w.store, resolved, c, rfl, RunsAlone.of_run hplain hrun⟩,
      Option.some.inj hstray, hl⟩

theorem mem_siblings {n : Node} (h : .node n ∈ siblings.toList) : n = .root ∨
    n = ⟨⟨1⟩, .root, "b", .directory, []⟩ ∨ n = ⟨⟨2⟩, .root, "a", .directory, []⟩ := by
  simpa using SortedBy.mem_of_mem_ofList h

theorem siblings_wellFormed : siblings.WellFormed where
  root := by decide +kernel
  parent {n} hn _ := by
    refine ⟨.root, by decide +kernel, ?_, rfl⟩
    obtain rfl | rfl | rfl := mem_siblings hn <;> rfl
  unique hm hn hmb hnb _ hname := by
    obtain rfl | rfl | rfl := mem_siblings hm
    · exact absurd rfl hmb
    all_goals
      obtain rfl | rfl | rfl := mem_siblings hn
      · exact absurd rfl hnb
      all_goals first | rfl | exact absurd hname (by decide)
  rooted n hn := by
    obtain rfl | rfl | rfl := mem_siblings hn
    · exact .refl _
    all_goals exact .up hn (.refl _)
  name hn hbelow := by
    obtain rfl | rfl | rfl := mem_siblings hn
    · exact absurd rfl hbelow
    all_goals decide +kernel
  owner hb := by simpa using SortedBy.mem_of_mem_ofList hb
  counter hr := by
    obtain rfl | rfl | rfl : _ = Register.nodeIdCounter ∨ _ = Register.blockIdCounter ∨
      _ = Register.generationStamp := by simpa using hr
    · exact ⟨2, rfl⟩
    · exact ⟨0, rfl⟩
    · exact ⟨1000, rfl⟩

theorem acquire_order_paths : siblings.Hierarchy ∧
    ∃ (a : Acquisition siblings (nodesAt ["/a", "/b"] false))
      (b : Acquisition siblings (nodesAt ["/b", "/", "/a"] false)),
      a.keys = [.node ⟨2⟩, .node ⟨1⟩] ∧ b.keys = [.node .root, .node ⟨2⟩, .node ⟨1⟩] ∧
        (a.keys.idxOf (.node ⟨2⟩) < a.keys.idxOf (.node ⟨1⟩) ↔
          b.keys.idxOf (.node ⟨2⟩) < b.keys.idxOf (.node ⟨1⟩)) := by
  obtain ⟨a, ha, hl⟩ := exists_acquisition (nodesAt ["/a", "/b"] false)
    [(.node ⟨2⟩, false), (.node ⟨1⟩, false)] (by decide +kernel)
  obtain ⟨b, hb, hl'⟩ := exists_acquisition (nodesAt ["/b", "/", "/a"] false)
    [(.node .root, false), (.node ⟨2⟩, false), (.node ⟨1⟩, false)] (by decide +kernel)
  have hkeys : a.keys = [.node ⟨2⟩, .node ⟨1⟩] := by rw [keys, hl]; rfl
  have hkeys' : b.keys = [.node .root, .node ⟨2⟩, .node ⟨1⟩] := by rw [keys, hl']; rfl
  have hrows := siblings_wellFormed.toHierarchy
  refine ⟨hrows, a, b, hkeys, hkeys', acquire_order a b hrows ?_ ?_ ?_ ?_ ?_ ?_⟩
  all_goals simp only [Alike, hkeys, hkeys', ha, hb, hl, hl']
  all_goals decide +kernel

-- A list has the directories by id, though a walk takes them by name.
theorem acquire_order_siblings : siblings.WellFormed ∧
    ∃ (a : Acquisition siblings (nodesAt ["/a", "/b"] false))
      (b : Acquisition siblings (nodesAt ["/"] true)),
      a.keys = [.node ⟨2⟩, .node ⟨1⟩] ∧ b.keys = [.node .root, .node ⟨1⟩, .node ⟨2⟩] ∧
        ¬(a.keys.idxOf (.node ⟨2⟩) < a.keys.idxOf (.node ⟨1⟩) ↔
          b.keys.idxOf (.node ⟨2⟩) < b.keys.idxOf (.node ⟨1⟩)) := by
  obtain ⟨a, -, hl⟩ := exists_acquisition (nodesAt ["/a", "/b"] false)
    [(.node ⟨2⟩, false), (.node ⟨1⟩, false)] (by decide +kernel)
  obtain ⟨b, -, hl'⟩ := exists_acquisition (nodesAt ["/"] true)
    [(.node .root, false), (.node ⟨1⟩, true), (.node ⟨2⟩, true)] (by decide +kernel)
  have hkeys : a.keys = [.node ⟨2⟩, .node ⟨1⟩] := by rw [keys, hl]; rfl
  have hkeys' : b.keys = [.node .root, .node ⟨1⟩, .node ⟨2⟩] := by rw [keys, hl']; rfl
  refine ⟨siblings_wellFormed, a, b, hkeys, hkeys', ?_⟩
  rw [hkeys, hkeys']
  decide

end Acquisition

end NamespaceService
