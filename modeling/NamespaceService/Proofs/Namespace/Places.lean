import NamespaceService.Proofs.Namespace.Hierarchy

namespace NamespaceService

-- Two states of one node.
structure Node.Alike (m n : Node) : Prop where
  id_eq : m.id = n.id
  parent_eq : m.parent = n.parent
  name_eq : m.name = n.name
  kind_eq : m.kind = n.kind

namespace Node.Alike

variable {k m n : Node}

theorem refl (n : Node) : n.Alike n :=
  ⟨rfl, rfl, rfl, rfl⟩

theorem symm (h : m.Alike n) : n.Alike m :=
  ⟨h.id_eq.symm, h.parent_eq.symm, h.name_eq.symm, h.kind_eq.symm⟩

theorem trans (h : k.Alike m) (h' : m.Alike n) : k.Alike n :=
  ⟨h.id_eq.trans h'.id_eq, h.parent_eq.trans h'.parent_eq, h.name_eq.trans h'.name_eq,
    h.kind_eq.trans h'.kind_eq⟩

theorem isDirectory_eq (h : m.Alike n) : m.isDirectory = n.isDirectory := by
  rw [Node.isDirectory, Node.isDirectory, h.kind_eq]

end Node.Alike

namespace Rows

variable {rows : Rows} {changes : List Change} {dir m n : Node} {name : String}
  {p q : Position}

def entryNamed? (rows : Rows) (dir : Node) (name : String) : Option Node :=
  if dir.isDirectory then (rows.lookup (.nodeNamed dir.id name)).bind Row.node? else none

-- The node at a position, found from the root downwards.
def place (rows : Rows) (p : Position) : Option Node :=
  p.foldl (fun found name => found.bind (rows.entryNamed? · name))
    ((rows.lookup (.node .root)).bind Row.node?)

theorem place_concat : rows.place (p ++ [name]) = (rows.place p).bind (rows.entryNamed? · name) := by
  simp [place]

theorem entryNamed?_of_lookup (h : rows.lookup (.nodeNamed dir.id name) = none) :
    rows.entryNamed? dir name = none := by
  simp [entryNamed?, h]

theorem entry_of_entryNamed? (h : rows.entryNamed? dir name = some n) :
    dir.isDirectory ∧ .node n ∈ rows.toList ∧ ¬n.isRoot ∧ n.parent = dir.id ∧ n.name = name := by
  rw [entryNamed?] at h
  split at h
  case isFalse => cases h
  case isTrue hdir =>
    obtain ⟨row, hrow, hn⟩ := Option.bind_eq_some_iff.mp h
    obtain ⟨hmem, hsel⟩ := mem_of_lookup hrow
    obtain ⟨m, rfl, hentry, hname⟩ := Finder.selects_nodeNamed hsel
    cases hn
    obtain ⟨hbelow, hparent⟩ := isEntryOf_iff.mp hentry
    exact ⟨hdir, hmem, hbelow, hparent, hname⟩

-- What is at a place below the root is an entry of the directory above.
theorem entry_of_place (hn : rows.place (p ++ [name]) = some n) :
    ∃ dir, rows.place p = some dir ∧ dir.isDirectory ∧ .node n ∈ rows.toList ∧ ¬n.isRoot ∧
      n.parent = dir.id ∧ n.name = name := by
  rw [place_concat] at hn
  obtain ⟨dir, hdir, hn⟩ := Option.bind_eq_some_iff.mp hn
  exact ⟨dir, hdir, entry_of_entryNamed? hn⟩

theorem root_of_place_nil (hn : rows.place [] = some n) : .node n ∈ rows.toList ∧ n.isRoot := by
  obtain ⟨row, hrow, hnode⟩ := Option.bind_eq_some_iff.mp hn
  obtain ⟨hmem, hsel⟩ := mem_of_lookup hrow
  obtain ⟨m, rfl, hid⟩ := Row.eq_node_of_key (Finder.key_of_selects rfl hsel)
  cases hnode
  exact ⟨hmem, isRoot_iff.mpr hid⟩

theorem mem_of_place (hp : rows.place p = some n) : .node n ∈ rows.toList := by
  cases p using List.reverseRecOn
  case nil => exact (root_of_place_nil hp).1
  case append_singleton q name _ =>
    obtain ⟨_, -, -, hn, -⟩ := entry_of_place hp
    exact hn

-- No node is at two places.
theorem place_injective (hp : rows.place p = some m) (hq : rows.place q = some n)
    (hid : m.id = n.id) : p = q := by
  induction p using List.reverseRecOn generalizing q m n
  case nil =>
    have hroot := isRoot_iff.mp (root_of_place_nil hp).2
    cases q using List.reverseRecOn
    case nil => rfl
    case append_singleton q name _ =>
      obtain ⟨_, -, -, -, hbelow, -⟩ := entry_of_place hq
      exact absurd (isRoot_iff.mpr (hid.symm.trans hroot)) hbelow
  case append_singleton p name ih =>
    obtain ⟨dir, hdir, -, hm, hmb, hmp, hmn⟩ := entry_of_place hp
    cases q using List.reverseRecOn
    case nil =>
      have hroot := isRoot_iff.mp (root_of_place_nil hq).2
      exact absurd (isRoot_iff.mpr (hid.trans hroot)) hmb
    case append_singleton q name' _ =>
      obtain ⟨dir', hdir', -, hn, -, hnp, hnn⟩ := entry_of_place hq
      cases node_eq_of_mem hm hn hid
      rw [ih hdir hdir' (hmp.symm.trans hnp), hmn.symm.trans hnn]

-- What is in something is in a directory, and under a name of its own.
structure Treelike (rows : Rows) : Prop where
  directory {dir n : Node} : .node dir ∈ rows.toList → .node n ∈ rows.toList → n.isEntryOf dir.id →
    dir.isDirectory
  unique {m n : Node} : .node m ∈ rows.toList → .node n ∈ rows.toList → ¬m.isRoot → ¬n.isRoot →
    m.parent = n.parent → m.name = n.name → m = n

theorem Treelike.entryNamed?_of_entry (h : rows.Treelike) (hdir : dir.isDirectory)
    (hn : .node n ∈ rows.toList) (hbelow : ¬n.isRoot) (hparent : n.parent = dir.id) :
    rows.entryNamed? dir n.name = some n := by
  rw [entryNamed?, if_pos hdir]
  cases hlookup : rows.lookup (.nodeNamed dir.id n.name)
  case none => exact absurd rfl (name_ne_of_free hlookup hn hbelow hparent)
  case some row =>
    obtain ⟨hmem, hsel⟩ := mem_of_lookup hlookup
    obtain ⟨m, rfl, hentry, hname⟩ := Finder.selects_nodeNamed hsel
    obtain ⟨hbelow', hparent'⟩ := isEntryOf_iff.mp hentry
    cases h.unique hmem hn hbelow' hbelow (hparent'.trans hparent.symm) hname
    rfl

namespace Hierarchy

theorem treelike (h : rows.Hierarchy) : rows.Treelike where
  directory hdir hn hentry := by
    obtain ⟨hbelow, hparent⟩ := isEntryOf_iff.mp hentry
    obtain ⟨dir', hdir', hid, hd⟩ := h.parent hn hbelow
    exact node_eq_of_mem hdir' hdir (hid.trans hparent) ▸ hd
  unique := h.unique

theorem place_nil (h : rows.Hierarchy) : rows.place [] = some .root := by
  have : rows.lookup (.node .root) = some (.node .root) :=
    (lookup_of_key? rfl).trans (SortedBy.find?_of_mem h.root)
  simp [place, this, Row.node?]

theorem entryNamed?_eq_some_iff (h : rows.Hierarchy) : rows.entryNamed? dir name = some n ↔
    dir.isDirectory ∧ .node n ∈ rows.toList ∧ ¬n.isRoot ∧ n.parent = dir.id ∧ n.name = name := by
  refine ⟨entry_of_entryNamed?, ?_⟩
  rintro ⟨hdir, hn, hbelow, hparent, rfl⟩
  exact h.treelike.entryNamed?_of_entry hdir hn hbelow hparent

end Hierarchy

theorem place_none_of_above (hq : rows.place q = none) (h : q <+: p) : rows.place p = none := by
  obtain ⟨r, rfl⟩ := h
  induction r using List.reverseRecOn
  case nil => rwa [List.append_nil]
  case append_singleton r name ih => rw [← List.append_assoc, place_concat, ih, Option.bind_none]

-- A node is as old as one before the step, or it was made under a free name with a new id.
theorem Edit.old_or_new (h : rows.Edit False changes)
    (hmem : .node m ∈ (rows.applyAll changes).toList) :
    (∃ n : Node, .node n ∈ rows.toList ∧ m.Alike n) ∨
      rows.lookup (.nodeNamed m.parent m.name) = none ∧
        ∃ value, rows.counterAt .nodeIdCounter value ∧ value.toNat < m.id.value.toNat := by
  obtain hm | hm := mem_or_upsert hmem
  · exact .inl ⟨m, hm, .refl m⟩
  clear hmem
  cases h
  case nothing => cases hm
  case make dir name kind value id more counter next present directory free kind_eq leases =>
    cases node_of_make leases hm
    have := toNat_of_next? next
    exact .inr ⟨free, value, counter, by simp only; omega⟩
  case drop => simp at hm
  case move old dir name allowed present below goal directory free => exact allowed.elim
  case append old value id stamp counter next present file =>
    have hm : m = { old with blocks := old.blocks ++ [⟨id⟩] } := by simpa using hm
    subst hm
    exact .inl ⟨old, present, rfl, rfl, rfl, rfl⟩

-- No place goes from one node to another in one step.
theorem Edit.place_id (h : rows.Edit False changes) (hrows : rows.Hierarchy)
    (hrows' : (rows.applyAll changes).Hierarchy) (hn : rows.place p = some n)
    (hm : (rows.applyAll changes).place p = some m) : m.id = n.id := by
  induction p using List.reverseRecOn generalizing m n
  case nil =>
    cases hrows.place_nil.symm.trans hn
    cases hrows'.place_nil.symm.trans hm
    rfl
  case append_singleton q name ih =>
    rw [place_concat] at hn hm
    obtain ⟨dir, hdir, hn⟩ := Option.bind_eq_some_iff.mp hn
    obtain ⟨dir', hdir', hm⟩ := Option.bind_eq_some_iff.mp hm
    obtain ⟨-, hn, hnb, hnp, hnn⟩ := hrows.entryNamed?_eq_some_iff.mp hn
    obtain ⟨-, hm, hmb, hmp, hmn⟩ := hrows'.entryNamed?_eq_some_iff.mp hm
    have hparent : m.parent = n.parent := (hmp.trans (ih hdir hdir')).trans hnp.symm
    have hname : m.name = n.name := hmn.trans hnn.symm
    obtain ⟨k, hk, halike⟩ | ⟨hfree, -⟩ := h.old_or_new hm
    · have hkb : ¬k.isRoot := by simpa [Node.isRoot, halike.id_eq] using hmb
      cases hrows.unique hk hn hkb hnb (halike.parent_eq.symm.trans hparent)
        (halike.name_eq.symm.trans hname)
      exact halike.id_eq
    · exact absurd hname.symm (name_ne_of_free hfree hn hnb hparent.symm)

theorem Edit.extends_of_upsert {moves : Prop} (h : rows.Edit moves changes) {lease : Lease}
    (hlease : .upsert (.lease lease) ∈ changes) : rows.Extends lease := by
  cases h
  case make leases =>
    obtain hlease | hlease := List.mem_append.mp hlease
    · simp at hlease
    · obtain ⟨_, heq, hextends⟩ := leases _ hlease
      cases heq
      exact hextends
  all_goals simp at hlease

-- Only nodes and blocks are removed.
theorem Edit.not_remove {moves : Prop} {key : Key} (h : rows.Edit moves changes)
    (hnode : ∀ id, key ≠ .node id) (hblock : ∀ id, key ≠ .block id) : .remove key ∉ changes := by
  intro hremove
  cases h
  case make leases =>
    obtain hremove | hremove := List.mem_append.mp hremove
    · simp at hremove
    · obtain ⟨_, heq, -⟩ := leases _ hremove
      cases heq
  case drop =>
    obtain hremove | hremove := List.mem_append.mp hremove
    · obtain ⟨block, -, heq⟩ := List.mem_map.mp hremove
      exact hblock block.id (Change.remove.inj heq).symm
    · exact hnode _ (Change.remove.inj (List.mem_singleton.mp hremove))
  all_goals simp at hremove

-- Leases only come to cover more.
theorem Edit.lease {moves : Prop} (h : rows.Edit moves changes) {old : Lease}
    (hold : .lease old ∈ rows.toList) :
    ∃ lease : Lease, .lease lease ∈ (rows.applyAll changes).toList ∧ lease.holder = old.holder ∧
      ∀ path, old.covers path → lease.covers path := by
  have hfind : rows.find? (.lease old.holder) = some (.lease old) := SortedBy.find?_of_mem hold
  obtain hsame | hremove | ⟨row, hrow, hkey, hnew⟩ := find?_applyAll_or (.lease old.holder)
  · exact ⟨old, SortedBy.mem_of_find? (hsame.trans hfind), rfl, fun _ => id⟩
  · exact absurd hremove (h.not_remove (by simp) (by simp))
  · cases row
    case lease lease =>
      have hholder : lease.holder = old.holder := Key.lease.inj hkey
      exact ⟨lease, SortedBy.mem_of_find? hnew, hholder,
        h.extends_of_upsert hrow old hold hholder.symm⟩
    case replica r =>
      rw [Row.key] at hkey
      split at hkey <;> cases hkey
    all_goals cases hkey

end Rows

namespace Timeline

variable {σ : Timeline} {t u τ : Nat} {dir m n : Node} {name : String} {p q : Position}

-- As long as a node is there, it keeps its directory, its name and its kind.
structure Unmoved (σ : Timeline) : Prop where
  hierarchy (n : Nat) : (σ.rows n).Hierarchy
  alike {t u : Nat} {m n : Node} : .node n ∈ (σ.rows t).toList → .node m ∈ (σ.rows u).toList →
    m.id = n.id → m.Alike n

-- All that ever happens to the rows is that nodes are made and removed, and files appended to.
structure Tended (σ : Timeline) : Prop where
  tidy (n : Nat) : (σ.store n).Tidy
  edit (n : Nat) : ∃ changes, (σ.rows n).Edit False changes ∧
    σ.rows (n + 1) = (σ.rows n).applyAll changes

namespace Tended

variable (h : σ.Tended)

include h

theorem hierarchy (n : Nat) : (σ.rows n).Hierarchy :=
  (h.tidy n).hierarchy

theorem numbered (n : Nat) : (σ.rows n).Numbered :=
  (h.tidy n).numbered

-- The counter stays ahead of a node, and the node's id is not given to another one.
theorem alike_later (hn : .node n ∈ (σ.rows t).toList) (htu : t ≤ u) :
    (∃ value, (σ.rows u).counterAt .nodeIdCounter value ∧ n.id.value.toNat ≤ value.toNat) ∧
      ∀ m : Node, .node m ∈ (σ.rows u).toList → m.id = n.id → m.Alike n := by
  induction htu
  case refl =>
    obtain ⟨value, hvalue, hle⟩ := (h.numbered t).node
    refine ⟨⟨value, hvalue, hle n hn⟩, fun m hm hid => ?_⟩
    exact Rows.node_eq_of_mem hm hn hid ▸ .refl n
  case step u _ ih =>
    obtain ⟨⟨value, hvalue, hle⟩, halike⟩ := ih
    obtain ⟨changes, hedit, hrows⟩ := h.edit u
    rw [hrows]
    constructor
    case left =>
      obtain ⟨value', hvalue', hgrow, -⟩ := hedit.nodeCounter (h.numbered u) hvalue
      exact ⟨value', hvalue', hle.trans hgrow⟩
    case right =>
      intro m hm hid
      obtain ⟨k, hk, hmk⟩ | ⟨-, value', hvalue', hlt⟩ := hedit.old_or_new hm
      · exact hmk.trans (halike k hk (hmk.id_eq.symm.trans hid))
      · cases hvalue.symm.trans hvalue'
        rw [hid] at hlt
        omega

theorem alike (hn : .node n ∈ (σ.rows t).toList) (hm : .node m ∈ (σ.rows u).toList)
    (hid : m.id = n.id) : m.Alike n := by
  obtain htu | hut := Nat.le_total t u
  · exact (h.alike_later hn htu).2 m hm hid
  · exact ((h.alike_later hm hut).2 n hn hid.symm).symm

theorem unmoved : σ.Unmoved where
  hierarchy := h.hierarchy
  alike := h.alike

-- As long as a place is taken, it is taken by the same node.
theorem place_id (htu : t ≤ u) (hn : (σ.rows t).place p = some n)
    (htaken : ∀ s, t ≤ s → s ≤ u → (σ.rows s).place p ≠ none) :
    ∃ m, (σ.rows u).place p = some m ∧ m.id = n.id := by
  induction htu
  case refl => exact ⟨n, hn, rfl⟩
  case step u htu ih =>
    obtain ⟨m, hm, hid⟩ := ih fun s hs hu => htaken s hs (hu.trans u.le_succ)
    obtain ⟨k, hk⟩ := Option.ne_none_iff_exists'.mp (htaken (u + 1) (Nat.le_succ_of_le htu) le_rfl)
    obtain ⟨changes, hedit, hrows⟩ := h.edit u
    have hkm := hedit.place_id (h.hierarchy u) (hrows ▸ h.hierarchy (u + 1)) hm (hrows ▸ hk)
    exact ⟨k, hk, hkm.trans hid⟩

-- If a directory has no entry of a name some time after it was in place, there was a moment without
-- anything at the name's place.
theorem place_missing (hdir : (σ.rows t).place p = some dir) (htu : t ≤ u)
    (hnone : (σ.rows u).lookup (.nodeNamed dir.id name) = none) :
    ∃ s, t ≤ s ∧ s ≤ u ∧ (σ.rows s).place (p ++ [name]) = none := by
  by_contra! htaken
  have hparent : ∀ s, t ≤ s → s ≤ u → (σ.rows s).place p ≠ none := fun s hs hu hp =>
    htaken s hs hu (Rows.place_none_of_above hp (List.prefix_append p [name]))
  obtain ⟨m, hm, hid⟩ := h.place_id htu hdir hparent
  refine htaken u htu le_rfl ?_
  rw [Rows.place_concat, hm, Option.bind_some]
  exact Rows.entryNamed?_of_lookup (hid ▸ hnone)

-- A lease that covers a path goes on to cover it.
theorem covers_later {holder path : String} (htu : t ≤ u)
    (hcovers : (((σ.rows t).lookup (.lease holder)).bind Row.lease?).any (·.covers path)) :
    (((σ.rows u).lookup (.lease holder)).bind Row.lease?).any (·.covers path) := by
  induction htu
  case refl => exact hcovers
  case step u _ ih =>
    obtain ⟨changes, hedit, hrows⟩ := h.edit u
    obtain ⟨old, hold, hcovers⟩ := (Option.any_eq_true ..).mp ih
    obtain ⟨hmem, hholder⟩ := Namespace.leaseOf_eq_some_iff.mp hold
    obtain ⟨lease, hlease, hsame, hmore⟩ := hedit.lease hmem
    rw [hrows, Namespace.leaseOf_eq_some_iff.mpr ⟨hlease, hsame.trans hholder⟩]
    exact hmore path hcovers

end Tended

end Timeline

end NamespaceService
