import Mathlib.Data.List.Induction
import NamespaceService.Proofs.Store.Versions
import NamespaceService.Store.Direct

namespace NamespaceService

namespace Rows

variable {rows rows' : Rows} {finder : Finder} {n : Node} {dir : NodeId} {name : String}

theorem lookup_eq_of_selected
    (h : ∀ row, finder.selects row → (row ∈ rows.toList ↔ row ∈ rows'.toList)) :
    rows.lookup finder = rows'.lookup finder := by
  have hfound {rows rows' : Rows} {found : Row} (hrows : rows.lookup finder = some found)
      (h : ∀ row, finder.selects row → (row ∈ rows.toList ↔ row ∈ rows'.toList)) :
      rows'.lookup finder = some found := by
    obtain ⟨hmem, hsel, hfirst⟩ := lookup_eq_some_iff.mp hrows
    exact lookup_eq_some_iff.mpr
      ⟨(h found hsel).mp hmem, hsel, fun r hr hr' => hfirst r ((h r hr').mpr hr) hr'⟩
  exact Option.ext fun row => ⟨(hfound · h), (hfound · fun r hr => (h r hr).symm)⟩

end Rows

namespace Path

-- The kind of the node that is made for a path.
def kindOf (path : String) : NodeKind :=
  if path.toList.getLast? = some '/' then .directory else .file

end Path

namespace Store

variable {s : Store} {n dir : Node} {name : String} {p q names : Position} {kind : NodeKind}

-- The node that the names lead to from the root, whatever kinds of nodes are on the way.
def reach? (s : Store) (p : Position) : Option Node :=
  s.rootNode?.bind (s.descend · p)

theorem reach?_concat :
    s.reach? (p ++ [name]) = (s.reach? p).bind (s.childNamed? ·.id name) := by
  cases hroot : s.rootNode? <;> simp [reach?, hroot, descend]

theorem reach?_of_above (h : p <+: q) (hq : (s.reach? q).isSome) : (s.reach? p).isSome := by
  obtain ⟨rest, rfl⟩ := h
  induction rest using List.reverseRecOn
  case nil => simpa using hq
  case append_singleton rest name ih =>
    rw [← List.append_assoc, reach?_concat] at hq
    exact ih (Option.isSome_of_isSome_bind hq)

theorem child_of_childNamed? {dir : NodeId} (h : s.childNamed? dir name = some n) :
    .node n ∈ s.rows.toList ∧ ¬n.isRoot ∧ n.parent = dir ∧ n.name = name := by
  obtain ⟨row, hrow, hn⟩ := Option.bind_eq_some_iff.mp h
  obtain ⟨hmem, hsel⟩ := Rows.mem_of_lookup hrow
  obtain ⟨m, rfl, hentry, hname⟩ := Finder.selects_nodeNamed hsel
  cases hn
  obtain ⟨hbelow, hparent⟩ := Rows.isEntryOf_iff.mp hentry
  exact ⟨hmem, hbelow, hparent, hname⟩

theorem mem_of_rootNode? (h : s.rootNode? = some n) : .node n ∈ s.rows.toList ∧ n.isRoot := by
  obtain ⟨row, hrow, hn⟩ := Option.bind_eq_some_iff.mp h
  obtain ⟨m, rfl, hid⟩ := Row.eq_node_of_key (SortedBy.key_of_find? hrow)
  cases hn
  exact ⟨SortedBy.mem_of_find? hrow, by simpa [Node.isRoot] using hid⟩

theorem entry_of_reach? (h : s.reach? (p ++ [name]) = some n) : ∃ dir, s.reach? p = some dir ∧
    .node n ∈ s.rows.toList ∧ ¬n.isRoot ∧ n.parent = dir.id ∧ n.name = name := by
  rw [reach?_concat] at h
  obtain ⟨dir, hdir, hn⟩ := Option.bind_eq_some_iff.mp h
  exact ⟨dir, hdir, child_of_childNamed? hn⟩

theorem reach?_nil : s.reach? [] = s.rootNode? := by
  cases hroot : s.rootNode? <;> simp [reach?, hroot, descend]

theorem mem_of_reach? (h : s.reach? p = some n) : .node n ∈ s.rows.toList := by
  cases p using List.reverseRecOn
  case nil => exact (mem_of_rootNode? (reach?_nil ▸ h)).1
  case append_singleton p name _ =>
    obtain ⟨_, -, hn, -⟩ := entry_of_reach? h
    exact hn

-- No node is reached in two ways.
theorem reach?_injective (hp : s.reach? p = some dir) (hq : s.reach? q = some n)
    (hid : dir.id = n.id) : p = q := by
  obtain rfl : dir = n :=
    Row.node.inj (SortedBy.eq_of_mem (mem_of_reach? hp) (mem_of_reach? hq) (congrArg Key.node hid))
  clear hid
  induction p using List.reverseRecOn generalizing q dir
  case nil =>
    have hroot := (mem_of_rootNode? (reach?_nil ▸ hp)).2
    cases q using List.reverseRecOn
    case nil => rfl
    case append_singleton q name _ =>
      obtain ⟨_, -, -, hbelow, -⟩ := entry_of_reach? hq
      exact absurd hroot hbelow
  case append_singleton p name ih =>
    obtain ⟨above, habove, -, hbelow, hparent, hname⟩ := entry_of_reach? hp
    cases q using List.reverseRecOn
    case nil => exact absurd (mem_of_rootNode? (reach?_nil ▸ hq)).2 hbelow
    case append_singleton q name' _ =>
      obtain ⟨above', habove', -, -, hparent', hname'⟩ := entry_of_reach? hq
      obtain rfl : above = above' := Row.node.inj (SortedBy.eq_of_mem (mem_of_reach? habove)
        (mem_of_reach? habove') (congrArg Key.node (hparent.symm.trans hparent')))
      rw [ih habove habove', hname.symm.trans hname']

-- The root is there, names in a directory are unique, and the ids that nodes have or refer to have
-- been counted.
structure Rooted (s : Store) (last : UInt64) : Prop where
  root : s.rootNode? = some .root
  names : NamesApart s.rows.find?
  counter : s.counter? .nodeIdCounter = some last
  le {n : Node} : .node n ∈ s.rows.toList → n.id.value.toNat ≤ last.toNat ∧
    n.parent.value.toNat ≤ last.toNat

theorem Rooted.new : Rooted .new 0 where
  root := by decide
  names := by decide
  counter := by decide
  le {n} hn := by
    obtain rfl : n = .root := by simpa [new] using SortedBy.mem_of_mem_ofList hn
    decide

-- A new node, with an id that nobody has or refers to, in a directory that has no entry of its name.
structure Fits (s : Store) (n : Node) : Prop where
  below : ¬n.isRoot
  fresh {m : Node} : .node m ∈ s.rows.toList → m.id ≠ n.id ∧ m.parent ≠ n.id
  free : s.childNamed? n.parent n.name = none

section

variable (h : s.Fits n)

include h

theorem Fits.mem_insert_iff {row : Row} :
    row ∈ (s.insert (.node n)).rows.toList ↔ row = .node n ∨ row ∈ s.rows.toList := by
  refine SortedBy.mem_insert_iff.trans (or_congr_right (and_iff_left_of_imp fun hrow hkey => ?_))
  obtain ⟨m, rfl, hid⟩ := Row.eq_node_of_key hkey.symm
  exact (h.fresh hrow).1 hid

theorem Fits.namesApart (hnames : NamesApart s.rows.find?) :
    NamesApart (s.insert (.node n)).rows.find? := by
  have hother {row : Row} (hrow : row ∈ s.rows.toList) : ¬row.isNamesake (.node n) := by
    intro hsame
    obtain ⟨m, n', rfl, heq, hbelow, -, hparent, hname⟩ := Row.isNamesake_iff.mp hsame
    cases heq
    have hlookup : s.rows.lookup (.nodeNamed n.parent n.name) = some (.node m) :=
      Rows.lookup_of_selects hnames hrow
        (by simp [Finder.selects, Node.isEntryOf, hbelow, hparent, hname])
    simpa [childNamed?, hlookup, Row.node?] using h.free
  rw [Rows.namesApart_iff]
  intro r hr r' hr' hsame
  obtain rfl | hr := h.mem_insert_iff.mp hr
  · obtain rfl | hr' := h.mem_insert_iff.mp hr'
    · rfl
    · obtain ⟨m, n', hm, rfl, hbelow, hbelow', hparent, hname⟩ := Row.isNamesake_iff.mp hsame
      exact absurd (Row.isNamesake_iff.mpr
        ⟨n', m, rfl, hm, hbelow', hbelow, hparent.symm, hname.symm⟩) (hother hr')
  · obtain rfl | hr' := h.mem_insert_iff.mp hr'
    · exact absurd hsame (hother hr)
    · exact Rows.namesApart_iff.mp hnames r hr r' hr' hsame

theorem Fits.childNamed?_insert (hnames : NamesApart s.rows.find?) (dir : NodeId) (name : String) :
    (s.insert (.node n)).childNamed? dir name =
      if n.parent = dir ∧ n.name = name then some n else s.childNamed? dir name := by
  have hsel : (Finder.nodeNamed dir name).selects (.node n) ↔ n.parent = dir ∧ n.name = name := by
    simp [Finder.selects, Node.isEntryOf, h.below]
  split
  case isTrue heq =>
    rw [childNamed?, Rows.lookup_of_selects (h.namesApart hnames) (h.mem_insert_iff.mpr (.inl rfl))
      (hsel.mpr heq)]
    rfl
  case isFalse hne =>
    refine congrArg (Option.bind · Row.node?) (Rows.lookup_eq_of_selected fun row hrow => ?_)
    rw [h.mem_insert_iff, or_iff_right]
    rintro rfl
    exact hne (hsel.mp hrow)

theorem Fits.rootNode?_insert : (s.insert (.node n)).rootNode? = s.rootNode? := by
  have hne : Key.node n.id ≠ .node .root := fun heq => h.below (by simpa [Node.isRoot] using heq)
  exact congrArg (Option.bind · Row.node?) ((SortedBy.find?_insert ..).trans (if_neg hne))

-- What was reached before is still reached, and the new node is reached under its name.
theorem Fits.reach?_insert (hnames : NamesApart s.rows.find?) (hdir : s.reach? p = some dir)
    (hparent : n.parent = dir.id) (q : Position) :
    (s.insert (.node n)).reach? q = if q = p ++ [n.name] then some n else s.reach? q := by
  have hfree : s.reach? (p ++ [n.name]) = none := by
    rw [reach?_concat, hdir, Option.bind_some, ← hparent, h.free]
  induction q using List.reverseRecOn
  case nil => rw [reach?_nil, reach?_nil, h.rootNode?_insert, if_neg (by simp)]
  case append_singleton q name ih =>
    rw [reach?_concat, reach?_concat, ih]
    by_cases hq : q = p ++ [n.name]
    case pos =>
      have hself : n.parent ≠ n.id := hparent ▸ (h.fresh (mem_of_reach? hdir)).1
      have hnone : s.childNamed? n.id name = none :=
        Option.eq_none_iff_forall_ne_some.mpr fun m hm =>
          (h.fresh (child_of_childNamed? hm).1).2 (child_of_childNamed? hm).2.2.1
      rw [if_pos hq, hq, hfree, Option.bind_none, Option.bind_some, h.childNamed?_insert hnames,
        if_neg (fun heq => hself heq.1), hnone, if_neg (by simp)]
    case neg =>
      rw [if_neg hq]
      by_cases hlast : q = p ∧ name = n.name
      case pos =>
        obtain ⟨rfl, rfl⟩ := hlast
        rw [hdir, Option.bind_some, h.childNamed?_insert hnames, if_pos ⟨hparent, rfl⟩, if_pos rfl]
      case neg =>
        have hne : q ++ [name] ≠ p ++ [n.name] := fun heq =>
          hlast ((List.append_inj' heq rfl).imp_right List.singleton_inj.mp)
        rw [if_neg hne]
        refine Option.bind_congr fun above habove => ?_
        rw [h.childNamed?_insert hnames, if_neg]
        rintro ⟨habove', rfl⟩
        exact hlast ⟨reach?_injective habove hdir (habove'.symm.trans hparent), rfl⟩

theorem Fits.rooted {last : UInt64} (hs : s.Rooted last) (hid : n.id.value.toNat ≤ last.toNat)
    (hparent : n.parent.value.toNat ≤ last.toNat) : (s.insert (.node n)).Rooted last where
  root := h.rootNode?_insert.trans hs.root
  names := h.namesApart hs.names
  counter := by
    have hget : (s.insert (.node n)).get? (.register .nodeIdCounter) =
        s.get? (.register .nodeIdCounter) := (SortedBy.find?_insert ..).trans (if_neg nofun)
    rw [counter?, hget]
    exact hs.counter
  le {m} hm := by
    obtain heq | hm := h.mem_insert_iff.mp hm
    · cases heq
      exact ⟨hid, hparent⟩
    · exact hs.le hm

end

section

variable {entry : RegisterValue}

theorem mem_put_register {n : Node} :
    .node n ∈ (s.put (.register entry)).rows.toList ↔ .node n ∈ s.rows.toList := by
  refine SortedBy.mem_insert_iff.trans ?_
  simp [Row.key]

theorem reach?_put_register : (s.put (.register entry)).reach? = s.reach? ∧
    (s.put (.register entry)).childNamed? = s.childNamed? := by
  have hroot : (s.put (.register entry)).rootNode? = s.rootNode? :=
    congrArg (Option.bind · Row.node?) ((SortedBy.find?_insert ..).trans (if_neg nofun))
  have hchild : (s.put (.register entry)).childNamed? = s.childNamed? := by
    funext dir name
    refine congrArg (Option.bind · Row.node?) (Rows.lookup_eq_of_selected fun row hrow => ?_)
    obtain ⟨n, rfl, -⟩ := Finder.selects_nodeNamed hrow
    exact mem_put_register
  refine ⟨funext fun p => ?_, hchild⟩
  simp only [reach?, descend, hroot, hchild]

theorem Rooted.put_register {last value : UInt64} (h : s.Rooted last) (hle : last.toNat ≤ value.toNat) :
    (s.put (.register ⟨.nodeIdCounter, value⟩)).Rooted value where
  root := by rw [← reach?_nil, reach?_put_register.1, reach?_nil, h.root]
  names := by
    rw [Rows.namesApart_iff]
    intro r hr r' hr' hsame
    obtain ⟨m, n, rfl, rfl, -⟩ := Row.isNamesake_iff.mp hsame
    exact Rows.namesApart_iff.mp h.names _ (mem_put_register.mp hr) _ (mem_put_register.mp hr') hsame
  counter := by
    have hget : (s.put (.register ⟨.nodeIdCounter, value⟩)).get? (.register .nodeIdCounter) =
        some (.register ⟨.nodeIdCounter, value⟩) := (SortedBy.find?_insert ..).trans (if_pos rfl)
    rw [counter?, hget]
  le hn := (h.le (mem_put_register.mp hn)).imp (Nat.le_trans · hle) (Nat.le_trans · hle)

end

-- A new id is greater than all that have been counted.
theorem Rooted.allocate {last : UInt64} {id : NodeId} {s₁ : Store} (h : s.Rooted last)
    (hid : s.allocate = some (id, s₁)) : s₁ = s.put (.register ⟨.nodeIdCounter, id.value⟩) ∧
      last.toNat < id.value.toNat := by
  rw [Store.allocate, h.counter] at hid
  obtain ⟨next, hnext, heq⟩ := Option.bind_eq_some_iff.mp hid
  cases heq
  have hvalue : next.toNat = last.toNat + 1 := Counter.toNat_of_add? hnext
  exact ⟨rfl, by simp [hvalue]⟩

-- What a path gives to the positions that it comes through.
def kindGiven? (kind : NodeKind) (names p : Position) : Option NodeKind :=
  if p <+: names then some (if p = names then kind else .directory) else none

theorem ensureFrom_existing {parent existing : Node} {walked : Position}
    (h : s.reach? (walked ++ [name]) = some existing) :
    ensureFrom kind parent walked (name :: names) s =
      ensureFrom kind existing (walked ++ [name]) names s := by
  rw [reach?] at h
  rw [ensureFrom, h]

theorem ensureFrom_missing {parent : Node} {walked : Position}
    (h : s.reach? (walked ++ [name]) = none) : ensureFrom kind parent walked (name :: names) s =
      match s.allocate with
      | none => (none, s)
      | some (id, s) =>
        let node : Node := ⟨id, parent.id, name, if names.isEmpty then kind else .directory, []⟩
        ensureFrom kind node (walked ++ [name]) names (s.insert (.node node)) := by
  rw [reach?] at h
  cases hid : s.allocate <;> simp only [ensureFrom, h, hid]

-- Where nothing was reached, a node with a new id is made, and nothing else is reached in another way.
theorem Rooted.make {last value : UInt64} {parent : Node} {walked : Position} (h : s.Rooted last)
    (hlt : last.toNat < value.toNat) (hparent : s.reach? walked = some parent)
    (hfree : s.reach? (walked ++ [name]) = none) (kind : NodeKind) :
    let made : Node := ⟨⟨value⟩, parent.id, name, kind, []⟩
    let s' := (s.put (.register ⟨.nodeIdCounter, value⟩)).insert (.node made)
    s'.Rooted value ∧ ∀ q, s'.reach? q = if q = walked ++ [name] then some made else s.reach? q := by
  intro made s'
  have hcounted : (s.put (.register ⟨.nodeIdCounter, value⟩)).Rooted value :=
    h.put_register (Nat.le_of_lt hlt)
  have hfits : (s.put (.register ⟨.nodeIdCounter, value⟩)).Fits made := by
    refine ⟨fun hroot => ?_, fun {m} hm => ?_, ?_⟩
    · obtain rfl : value = 0 := by simpa [made, Node.isRoot, NodeId.root] using hroot
      exact absurd hlt (by simp)
    · obtain ⟨hid, hparent⟩ := h.le (mem_put_register.mp hm)
      constructor <;> intro heq <;> simp only [heq, made] at hid hparent <;> omega
    · rw [reach?_concat, hparent, Option.bind_some] at hfree
      rwa [reach?_put_register.2]
  have hle : parent.id.value.toNat ≤ last.toNat := (h.le (mem_of_reach? hparent)).1
  refine ⟨hfits.rooted hcounted (Nat.le_refl _) (Nat.le_of_lt (Nat.lt_of_le_of_lt hle hlt)), fun q => ?_⟩
  have hreaches := hfits.reach?_insert hcounted.names (reach?_put_register.1 ▸ hparent) rfl q
  rwa [reach?_put_register.1] at hreaches

-- The names walked so far are reached, and each of the others is reached or made.
theorem Rooted.ensureFrom {last : UInt64} {parent : Node} {walked : Position} (h : s.Rooted last)
    (hparent : s.reach? walked = some parent)
    (hmade : (ensureFrom kind parent walked names s).1.isSome) :
    (∃ last', (Store.ensureFrom kind parent walked names s).2.Rooted last') ∧
      ∀ p, ((Store.ensureFrom kind parent walked names s).2.reach? p).map Node.kind =
        ((s.reach? p).map Node.kind).or (kindGiven? kind (walked ++ names) p) := by
  induction names generalizing s last parent walked
  case nil =>
    refine ⟨⟨last, h⟩, fun p => ?_⟩
    rw [List.append_nil, kindGiven?, Store.ensureFrom]
    split
    case isFalse => rw [Option.or_none]
    case isTrue hprefix =>
      obtain ⟨n, hn⟩ := Option.isSome_iff_exists.mp (reach?_of_above hprefix (by rw [hparent]; rfl))
      rw [hn, Option.map_some, Option.some_or]
  case cons name names ih =>
    rw [List.append_cons]
    cases hreach : s.reach? (walked ++ [name])
    case some existing =>
      rw [ensureFrom_existing hreach] at hmade ⊢
      exact ih h hreach hmade
    case none =>
      rw [ensureFrom_missing hreach] at hmade ⊢
      cases hid : s.allocate
      case none => simp [hid] at hmade
      case some x =>
        obtain ⟨id, s₁⟩ := x
        simp only [hid] at hmade ⊢
        obtain ⟨rfl, hlt⟩ := h.allocate hid
        obtain ⟨hrooted, hreaches⟩ :=
          h.make hlt hparent hreach (if names.isEmpty then kind else .directory)
        obtain ⟨hrooted', hkinds⟩ := ih hrooted ((hreaches _).trans (if_pos rfl)) hmade
        refine ⟨hrooted', fun p => (hkinds p).trans ?_⟩
        rw [hreaches]
        split
        case isFalse => rfl
        case isTrue heq =>
          subst heq
          rw [hreach]
          cases names <;> simp [kindGiven?]

-- The node for each path can be made: the counter of node ids does not leave its word.
def hasIdsFor (s : Store) : List String → Bool
  | [] => true
  | path :: paths =>
    (s.ensure path (Path.kindOf path)).1.isSome && (s.ensure path (Path.kindOf path)).2.hasIdsFor paths

def ensureAll (s : Store) (paths : List String) : Store :=
  paths.foldl (fun s path => (s.ensure path (Path.kindOf path)).2) s

-- What a path gives to a position, if it is well formed.
def kindListed? (path : String) (p : Position) : Option NodeKind :=
  match Path.components path with
  | .ok names => kindGiven? (Path.kindOf path) names p
  | .error _ => none

theorem Rooted.ensure {last : UInt64} {path : String} (h : s.Rooted last)
    (hmade : (s.ensure path (Path.kindOf path)).1.isSome) :
    (∃ last', (s.ensure path (Path.kindOf path)).2.Rooted last') ∧
      ∀ p, ((s.ensure path (Path.kindOf path)).2.reach? p).map Node.kind =
        ((s.reach? p).map Node.kind).or (kindListed? path p) := by
  simp only [Store.ensure, kindListed?, h.root] at hmade ⊢
  cases hnames : Path.components path
  case error => exact ⟨⟨last, h⟩, fun p => (Option.or_none ..).symm⟩
  case ok names =>
    rw [hnames] at hmade
    exact h.ensureFrom (reach?_nil.trans h.root) hmade

theorem Rooted.ensureAll {last : UInt64} {paths : List String} (h : s.Rooted last)
    (hids : s.hasIdsFor paths) : (∃ last', (s.ensureAll paths).Rooted last') ∧
      ∀ p, ((s.ensureAll paths).reach? p).map Node.kind =
        ((s.reach? p).map Node.kind).or (paths.findSome? (kindListed? · p)) := by
  induction paths generalizing s last
  case nil => exact ⟨⟨last, h⟩, fun p => (Option.or_none ..).symm⟩
  case cons path paths ih =>
    obtain ⟨hmade, hids⟩ := Bool.and_eq_true_iff.mp hids
    obtain ⟨⟨last', h'⟩, hkinds⟩ := h.ensure hmade
    obtain ⟨hrooted, hkinds'⟩ := ih h' hids
    refine ⟨hrooted, fun p => (hkinds' p).trans ?_⟩
    rw [hkinds, Option.or_assoc, List.findSome?_cons]
    cases kindListed? path p <;> rfl

-- The kind of the node at a position: that which the first path that comes through gives to it.
def kindIn? (paths : List String) (p : Position) : Option NodeKind :=
  if p = [] then some .directory else paths.findSome? (kindListed? · p)

variable {paths : List String} {path : String}

theorem reach?_new : Store.new.reach? p = if p = [] then some .root else none := by
  cases p using List.reverseRecOn
  case nil => rw [if_pos rfl, reach?_nil, Rooted.new.root]
  case append_singleton p name _ =>
    rw [if_neg (by simp)]
    refine Option.eq_none_iff_forall_ne_some.mpr fun n hn => ?_
    obtain ⟨_, -, hmem, hbelow, -⟩ := entry_of_reach? hn
    obtain rfl : n = .root := by simpa [new] using SortedBy.mem_of_mem_ofList hmem
    exact hbelow rfl

theorem ofPaths_rooted (hids : Store.new.hasIdsFor paths) : ∃ last, (ofPaths paths).Rooted last :=
  (Rooted.new.ensureAll hids).1

-- A node is at each position that a well-formed path comes through, of the kind that the first of
-- these paths gives to it. Nothing looks at the kinds on the way, so there may be something below a
-- file.
theorem map_kind_reach_ofPaths (hids : Store.new.hasIdsFor paths) (p : Position) :
    ((ofPaths paths).reach? p).map Node.kind = kindIn? paths p := by
  refine ((Rooted.new.ensureAll hids).2 p).trans ?_
  rw [reach?_new, kindIn?]
  split <;> rfl

theorem nodeAt?_eq (hnames : Path.components path = .ok names) : s.nodeAt? path = s.reach? names := by
  rw [nodeAt?, hnames]
  rfl

theorem nodeAt?_malformed {e : Path.PathError} (h : Path.components path = .error e) :
    s.nodeAt? path = none := by
  rw [nodeAt?, h]

-- Each path that is listed has been made.
theorem isSome_kindIn? (hmem : path ∈ paths) (hnames : Path.components path = .ok names) :
    (kindIn? paths names).isSome := by
  rw [kindIn?]
  split
  case isTrue => rfl
  case isFalse =>
    rw [List.findSome?_isSome_iff]
    refine ⟨path, hmem, ?_⟩
    rw [kindListed?, hnames]
    simp [kindGiven?]

theorem Coherent.put (h : s.Coherent) (row : Row) : (s.put row).Coherent :=
  h.of_eq rfl rfl rfl

theorem Coherent.insert (h : s.Coherent) (row : Row) : (s.insert row).Coherent where
  quiet := h.quiet
  observed_le {tx key v} hv := by
    change v ≤ if key = row.key then s.version key + 1 else s.version key
    have hle := h.observed_le hv
    split <;> omega

theorem Coherent.ensureFrom {parent : Node} {walked : Position} (h : s.Coherent) :
    (ensureFrom kind parent walked names s).2.Coherent := by
  induction names generalizing s parent walked
  case nil => exact h
  case cons name names ih =>
    cases hreach : s.reach? (walked ++ [name])
    case some existing => exact ensureFrom_existing hreach ▸ ih h
    case none =>
      rw [ensureFrom_missing hreach]
      cases hid : s.allocate
      case none => exact h
      case some x =>
        obtain ⟨next, -, heq⟩ := Option.bind_eq_some_iff.mp hid
        cases heq
        exact ih ((h.put _).insert _)

theorem Coherent.ensureAll (h : s.Coherent) : (s.ensureAll paths).Coherent := by
  induction paths generalizing s
  case nil => exact h
  case cons path paths ih =>
    refine @ih (s.ensure path (Path.kindOf path)).2 ?_
    rw [Store.ensure]
    split
    case h_1 => exact h.ensureFrom
    case h_2 => exact h

theorem ofPaths_coherent : (ofPaths paths).Coherent :=
  Coherent.new.ensureAll

end Store

end NamespaceService
