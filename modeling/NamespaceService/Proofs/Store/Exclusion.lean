import NamespaceService.Proofs.Store.Versions

namespace NamespaceService

namespace Change

-- A change to the entries of a directory.
inductive Restructures (rows : Rows) (dir : NodeId) : Change → Prop
  | add {n : Node} (absent : rows.find? (.node n.id) = none) (enters : n.isEntryOf dir) :
    Restructures rows dir (.upsert (.node n))
  | remove {old : Node} (present : rows.find? (.node old.id) = some (.node old))
      (leaves : old.isEntryOf dir) :
    Restructures rows dir (.remove (.node old.id))
  | rename {old n : Node} (present : rows.find? (.node n.id) = some (.node old))
      (leaves : old.isEntryOf dir) (enters : n.isEntryOf dir) (name_ne : n.name ≠ old.name) :
    Restructures rows dir (.upsert (.node n))
  | moveIn {old n : Node} (present : rows.find? (.node n.id) = some (.node old))
      (outside : ¬old.isEntryOf dir) (enters : n.isEntryOf dir) :
    Restructures rows dir (.upsert (.node n))
  | moveAway {old n : Node} (present : rows.find? (.node n.id) = some (.node old))
      (leaves : old.isEntryOf dir) (outside : ¬n.isEntryOf dir) :
    Restructures rows dir (.upsert (.node n))

-- A row that was an entry of the directory is written under another parent.
def MovesAway (rows : Rows) (dir : NodeId) (change : Change) : Prop :=
  ∃ old n : Node, change = .upsert (.node n) ∧ n.id ≠ dir ∧
    rows.find? (.node n.id) = some (.node old) ∧ old.isEntryOf dir ∧ ¬n.isEntryOf dir

theorem owner?_node_eq_some_iff {n : Node} {dir : NodeId} :
    (Row.node n).owner? = some (.node dir) ↔ n.isEntryOf dir := by
  cases h : n.isRoot <;> simp [Row.owner?, Node.isEntryOf, h]

-- Of all changes to a directory's entries, only moving one away does not touch the directory.
theorem Restructures.touches_iff {rows : Rows} {dir : NodeId} {change : Change}
    (h : change.Restructures rows dir) :
    change.Touches rows (.node dir) ↔ ¬change.MovesAway rows dir := by
  constructor
  case mp =>
    rintro ht ⟨old, n, rfl, hne, -, -, hout⟩
    obtain hk | ho := ht
    · exact hne (Key.node.inj hk)
    · exact hout (owner?_node_eq_some_iff.mp ho)
  case mpr =>
    intro hm
    cases h
    case add n _ enters => exact .inr (owner?_node_eq_some_iff.mpr enters)
    case remove old present leaves =>
      exact .inr (by simpa [owner?, present] using owner?_node_eq_some_iff.mpr leaves)
    case rename enters _ => exact .inr (owner?_node_eq_some_iff.mpr enters)
    case moveIn enters => exact .inr (owner?_node_eq_some_iff.mpr enters)
    case moveAway old n present leaves outside =>
      refine .inl (congrArg Key.node ?_)
      by_contra hne
      exact hm ⟨old, n, rfl, hne, present, leaves, outside⟩

end Change

namespace Store

variable {s s' : Store} {tx : TxId} {dir : NodeId} {call : Call} {calls : List Call}

-- The store after some calls, whoever makes them.
def after (s : Store) (calls : List Call) : Store :=
  calls.foldl (fun s call => (s.answer call).2) s

theorem Coherent.after (h : s.Coherent) (calls : List Call) :
    s.Later (s.after calls) ∧ (s.after calls).Coherent := by
  induction calls generalizing s
  case nil => exact ⟨.refl s, h⟩
  case cons call calls ih =>
    have ⟨hl, hc⟩ := h.answer call
    have ⟨hl', hc'⟩ := ih hc
    exact ⟨hl.trans hl', hc'⟩

-- The call reads the row of an existing directory under a write lock.
inductive Fetches (s : Store) (tx : TxId) (dir : NodeId) : Call → Prop
  | find {finder : Finder} {n : Node} (hid : n.id = dir)
      (found : s.rows.lookup finder = some (.node n)) :
    Fetches s tx dir (.find tx .write finder)
  | findList {finder : Finder} {n : Node} (hid : n.id = dir)
      (found : .node n ∈ s.rows.lookupList finder) :
    Fetches s tx dir (.findList tx .write finder)

theorem Fetches.present (h : s.Fetches tx dir call) : s.rows.find? (.node dir) ≠ none := by
  have hmem : ∃ n : Node, n.id = dir ∧ .node n ∈ s.rows.toList := by
    cases h
    case find n hid found => exact ⟨n, hid, (Rows.mem_of_lookup found).1⟩
    case findList n hid found => exact ⟨n, hid, (Rows.mem_lookupList_iff.mp found).1⟩
  have ⟨n, hid, hn⟩ := hmem
  have := SortedBy.find?_of_mem hn
  simp [← hid, show Key.node n.id = (Row.node n).key from rfl, this]

theorem Fetches.restsOn (h : s.Fetches tx dir call) (hs : s.Coherent) :
    (s.answer call).2.RestsOn tx (.node dir) (s.version (.node dir)) := by
  cases h
  case find n hid found =>
    exact hid ▸ find_restsOn hs (by simp) (by rw [found]; rfl)
  case findList n hid found =>
    exact hid ▸ findList_restsOn hs (by simp) found

end Store

/-
An overlap of two transactions: `tx` reads the directory under a write lock, and later on another
transaction's commit is accepted. `change` is one of the changes of that commit, and `rows` are the
rows it finds. In the end `tx` tries to commit.
-/
structure Overlap (dir : NodeId) (rows : Rows) (change : Change) where
  start : Store
  coherent : start.Coherent
  tx : TxId
  fetch : Store.Call
  fetched : start.Fetches tx dir fetch
  between : List Store.Call
  other : TxId
  other_ne : other ≠ tx
  earlier : List Change
  rest : List Change
  accepted : ((start.after (fetch :: between)).commit other (earlier ++ change :: rest)).1 = .ok ()
  rows_eq : earlier.foldl Rows.apply (start.after (fetch :: between)).rows = rows
  later : List Store.Call
  changes : List Change

namespace Overlap

variable {dir : NodeId} {rows : Rows} {change : Change} (o : Overlap dir rows change)

-- The store in which the transaction tries to commit.
def finish : Store :=
  o.start.after (o.fetch :: o.between ++ .commit o.other (o.earlier ++ change :: o.rest) :: o.later)

def Refused : Prop :=
  ∃ key, (o.finish.commit o.tx o.changes).1 = .error (.stale key)

-- The stores right before and right after the change.
def before : Store :=
  o.earlier.foldl Store.apply (o.start.after (o.fetch :: o.between))

theorem before_rows : o.before.rows = rows :=
  Store.foldl_apply_rows.trans o.rows_eq

theorem start_later_before : o.start.Later o.before :=
  (o.coherent.after _).1.trans (.foldl_apply ..)

theorem finish_eq : o.finish =
    (((o.rest.foldl Store.apply (o.before.apply change)).record
      (.commit o.other (o.earlier ++ change :: o.rest).length))).after o.later := by
  have hcommit := Store.commit_of_ok (o.coherent.after _).2 o.accepted
  rw [List.foldl_append, List.foldl_cons] at hcommit
  rw [finish, Store.after, List.foldl_append, List.foldl_cons]
  exact congrArg (Store.after · o.later) hcommit

theorem finish_coherent : o.finish.Coherent :=
  (o.coherent.after _).2

theorem restsOn : o.finish.RestsOn o.tx (.node dir) (o.start.version (.node dir)) :=
  have ⟨_, hc⟩ := o.coherent.answer o.fetch
  (o.fetched.restsOn o.coherent).later (hc.after _).1

theorem change_later_finish : (o.before.apply change).Later o.finish := by
  rw [finish_eq]
  have hc : (o.before.apply change).Coherent :=
    ((o.coherent.after _).2.foldl_apply _).apply change
  have hrest := (hc.foldl_apply o.rest).record
    (.commit o.other (o.earlier ++ change :: o.rest).length)
  exact ((Store.Later.foldl_apply ..).trans (.record ..)).trans (hrest.after o.later).1

-- A transaction cannot commit once the version of a directory that it reads has moved.
theorem refused_of_version_ne (h : o.start.version (.node dir) ≠ o.finish.version (.node dir)) :
    o.Refused := by
  cases hc : (o.finish.commit o.tx o.changes).1
  case ok =>
    have hle := o.restsOn.version_eq o.finish_coherent hc
    have := o.start_later_before.version_le (.node dir)
    have := o.before.version_le_apply change (.node dir)
    have := o.change_later_finish.version_le (.node dir)
    omega
  case error refusal =>
    have ⟨key, hkey⟩ := (Store.commit_of_error o.finish_coherent hc).2
    exact ⟨key, hkey ▸ hc⟩

theorem refused_of_touches (h : change.Touches rows (.node dir)) : o.Refused := by
  refine o.refused_of_version_ne ?_
  have hmoved : (o.before.apply change).version (.node dir) ≠ o.before.version (.node dir) := by
    rw [Ne, Store.apply_version_eq_iff, not_not, before_rows]
    exact h
  have := o.start_later_before.version_le (.node dir)
  have := o.before.version_le_apply change (.node dir)
  have := o.change_later_finish.version_le (.node dir)
  omega

-- The directory cannot have been removed since it was read, either.
theorem refused_of_absent (h : rows.find? (.node dir) = none) : o.Refused := by
  refine o.refused_of_version_ne fun hv => ?_
  have := o.start_later_before.version_le (.node dir)
  have := o.before.version_le_apply change (.node dir)
  have := o.change_later_finish.version_le (.node dir)
  refine o.fetched.present ?_
  rw [← o.start_later_before.find?_eq (by omega), before_rows]
  exact h

end Overlap

-- A store of the given rows that nobody has used.
def Store.ofRows (rows : Rows) : Store :=
  { Store.new with rows }

theorem Store.ofRows_coherent (rows : Rows) : (Store.ofRows rows).Coherent :=
  Coherent.new.of_eq rfl rfl rfl

namespace Overlap

variable {dir : NodeId} {rows : Rows} {n : Node} {change : Change}

-- The shortest overlap: nothing but the read, the change, and the attempt to commit.
def minimal (change : Change) (present : rows.find? (.node dir) = some (.node n)) :
    Overlap dir rows change where
  start := .ofRows rows
  coherent := Store.ofRows_coherent rows
  tx := 1
  fetch := .find 1 .write (.node dir)
  fetched := .find (Key.node.inj (SortedBy.key_of_find? present : (Row.node n).key = _))
    ((Rows.lookup_of_key? rfl).trans present)
  between := []
  other := 2
  other_ne := by decide
  earlier := []
  rest := []
  accepted := by
    refine (Store.commit_eq_ok_iff ((Store.ofRows_coherent rows).answer _).2).mpr fun key v hm => ?_
    obtain hm | ⟨ht, -⟩ := Store.eq_or_mem_of_mem_find (Store.ofRows_coherent rows) hm
    · cases hm
    · cases ht
  rows_eq := Store.find_rows (Store.ofRows_coherent rows)
  later := []
  changes := []

theorem minimal_not_refused {present : rows.find? (.node dir) = some (.node n)}
    (h : ¬change.Touches rows (.node dir)) : ¬(minimal change present).Refused := by
  have hrows := Store.ofRows_coherent rows
  rintro ⟨key, hkey⟩
  have hok : ((minimal change present).finish.commit 1 []).1 = .ok () := by
    refine (Store.commit_eq_ok_iff (minimal change present).finish_coherent).mpr fun key v hm => ?_
    rw [finish_eq] at hm ⊢
    change (key, v) ∈ ((minimal change present).before.apply change).observed 1 at hm
    change ((minimal change present).before.apply change).version key = v
    rw [Store.apply_observed] at hm
    obtain hm | ⟨-, hrests, hv⟩ := Store.eq_or_mem_of_mem_find hrows hm
    · cases hm
    · have hfound : rows.lookup (.node dir) = some (.node n) :=
        (Rows.lookup_of_key? rfl).trans present
      have hdir : key = .node dir := by
        have hn : (Row.node n).key = .node dir := SortedBy.key_of_find? present
        have hkeys : some (Row.node n).key = some key :=
          (congrArg (Store.restsOn? _) hfound).symm.trans hrests
        exact (Option.some.inj hkeys).symm.trans hn
      cases hv
      rw [hdir, Store.apply_version_eq_iff.mpr (by rwa [before_rows])]
      exact congrFun (Store.find_version hrows) _
  cases hok.symm.trans hkey

-- The transaction cannot commit, whatever the overlap is, unless the change moves an entry away
-- from the directory, which is still there.
theorem refused_iff (h : change.Restructures rows dir) :
    (∀ o : Overlap dir rows change, o.Refused) ↔
      ¬(change.MovesAway rows dir ∧ rows.find? (.node dir) ≠ none) := by
  constructor
  case mp =>
    rintro hall ⟨haway, hpresent⟩
    obtain ⟨row, hrow⟩ := Option.ne_none_iff_exists'.mp hpresent
    obtain ⟨n, rfl, -⟩ := Row.eq_node_of_key (SortedBy.key_of_find? hrow)
    have hnot : ¬change.Touches rows (.node dir) := fun ht => h.touches_iff.mp ht haway
    exact minimal_not_refused hnot (hall (minimal change hrow))
  case mpr =>
    intro hnot o
    by_cases hpresent : rows.find? (.node dir) = none
    case pos => exact o.refused_of_absent hpresent
    case neg => exact o.refused_of_touches (h.touches_iff.mpr fun haway => hnot ⟨haway, hpresent⟩)

-- Two directories below the root, and a file in the first one.
def twoDirectories : Rows :=
  .ofList [.node .root, .node ⟨⟨1⟩, .root, "a", .directory, []⟩,
    .node ⟨⟨2⟩, .root, "b", .directory, []⟩, .node ⟨⟨3⟩, ⟨1⟩, "f", .file, []⟩]

theorem twoDirectories_add_refused :
    (Change.upsert (.node ⟨⟨4⟩, ⟨1⟩, "g", .file, []⟩)).Restructures twoDirectories ⟨1⟩ ∧
      ∀ o : Overlap ⟨1⟩ twoDirectories (.upsert (.node ⟨⟨4⟩, ⟨1⟩, "g", .file, []⟩)), o.Refused := by
  have habsent : twoDirectories.find? (.node ⟨4⟩) = none := by decide +kernel
  have hadd : (Change.upsert (.node ⟨⟨4⟩, ⟨1⟩, "g", .file, []⟩)).Restructures twoDirectories ⟨1⟩ :=
    .add habsent (by decide)
  refine ⟨hadd, (refused_iff hadd).mpr fun ⟨⟨old, n, heq, _, present, _⟩, _⟩ => ?_⟩
  cases heq
  cases habsent.symm.trans present

-- Both transactions read the first directory under a write lock. One moves the file out of it, the
-- other puts a new file into it, and both commits are accepted.
theorem moveAway_accepted :
    let start := (Store.ofRows twoDirectories).after [.begin, .begin, .find 1 .write (.node ⟨1⟩),
      .find 2 .write (.node ⟨1⟩), .find 2 .write (.node ⟨2⟩), .find 2 .write (.node ⟨3⟩)]
    let (moved, between) := start.commit 2 [.upsert (.node ⟨⟨3⟩, ⟨2⟩, "f", .file, []⟩)]
    let (added, finish) := between.commit 1 [.upsert (.node ⟨⟨4⟩, ⟨1⟩, "g", .file, []⟩)]
    moved = .ok () ∧ added = .ok () ∧
      finish.rows.lookupList (.children ⟨1⟩) = [.node ⟨⟨4⟩, ⟨1⟩, "g", .file, []⟩] := by
  decide +kernel

end Overlap

end NamespaceService
