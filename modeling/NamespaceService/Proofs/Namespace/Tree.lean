import Mathlib.Order.Nat
import NamespaceService.Proofs.Store.Rows
import NamespaceService.Row.Counter

namespace NamespaceService

namespace Rows

variable {rows : Rows} {changes : List Change} {m n : Node}

def applyAll (rows : Rows) (changes : List Change) : Rows :=
  changes.foldl apply rows

-- The root is there, everything else is in a directory, and names in a directory are unique.
structure Hierarchy (rows : Rows) : Prop where
  root : .node .root ∈ rows.toList
  parent {n : Node} : .node n ∈ rows.toList → ¬n.isRoot →
    ∃ dir : Node, .node dir ∈ rows.toList ∧ dir.id = n.parent ∧ dir.isDirectory
  unique {m n : Node} : .node m ∈ rows.toList → .node n ∈ rows.toList → ¬m.isRoot → ¬n.isRoot →
    m.parent = n.parent → m.name = n.name → m = n

theorem Hierarchy.namesApart (h : rows.Hierarchy) : NamesApart rows.find? := by
  refine namesApart_iff.mpr fun r hr r' hr' hsame => ?_
  obtain ⟨m, n, rfl, rfl, hbelow, hbelow', hparent, hname⟩ := Row.isNamesake_iff.mp hsame
  rw [h.unique hr hr' hbelow hbelow' hparent hname]

def counterAt (rows : Rows) (counter : Register) (value : UInt64) : Prop :=
  rows.find? (.register counter) = some (.register ⟨counter, value⟩)

-- Nodes are directories and files, and all ids have been counted.
structure Numbered (rows : Rows) : Prop where
  kind {n : Node} : .node n ∈ rows.toList → n.isDirectory ∨ n.isFile
  node : ∃ value, rows.counterAt .nodeIdCounter value ∧
    ∀ n : Node, .node n ∈ rows.toList → n.id.value.toNat ≤ value.toNat
  block : ∃ value, rows.counterAt .blockIdCounter value ∧
    ∀ b : Block, .block b ∈ rows.toList → b.id.value.toNat ≤ value.toNat

-- The lease covers all that a lease of its holder covered before.
def Extends (rows : Rows) (lease : Lease) : Prop :=
  ∀ old : Lease, .lease old ∈ rows.toList → old.holder = lease.holder →
    ∀ path, old.covers path → lease.covers path

-- What is committed at a time, given the rows that the commit finds. Only some operations move
-- nodes.
inductive Edit (rows : Rows) (moves : Prop) : List Change → Prop
  | nothing : Edit rows moves []
  | make {dir : Node} {name : String} {kind : NodeKind} {value id : UInt64} {more : List Change}
      (counter : rows.counterAt .nodeIdCounter value) (next : Counter.next? value = some id)
      (present : .node dir ∈ rows.toList) (directory : dir.isDirectory)
      (free : rows.lookup (.nodeNamed dir.id name) = none)
      (kind_eq : kind = .directory ∨ kind = .file)
      (leases : ∀ change ∈ more, ∃ lease, change = .upsert (.lease lease) ∧ rows.Extends lease) :
    Edit rows moves ([.upsert (.register ⟨.nodeIdCounter, id⟩),
      .upsert (.node ⟨⟨id⟩, dir.id, name, kind, []⟩)] ++ more)
  | drop {n : Node} {blocks : List Block} (present : .node n ∈ rows.toList) (below : ¬n.isRoot)
      (empty : n.isDirectory → rows.lookupList (.children n.id) = []) :
    Edit rows moves (blocks.map (fun block => .remove (.block block.id)) ++ [.remove (.node n.id)])
  | move {n dir : Node} {name : String} (allowed : moves) (present : .node n ∈ rows.toList) (below : ¬n.isRoot)
      (goal : .node dir ∈ rows.toList) (directory : dir.isDirectory)
      (free : rows.lookup (.nodeNamed dir.id name) = none) :
    Edit rows moves [.upsert (.node { n with parent := dir.id, name })]
  | append {n : Node} {value id stamp : UInt64} (counter : rows.counterAt .blockIdCounter value)
      (next : Counter.next? value = some id) (present : .node n ∈ rows.toList) (file : n.isFile) :
    Edit rows moves [.upsert (.register ⟨.blockIdCounter, id⟩), .upsert (.register ⟨.generationStamp, stamp⟩),
      .upsert (.node { n with blocks := n.blocks ++ [⟨id⟩] }), .upsert (.block (.fresh ⟨id⟩ n.id stamp))]

theorem Edit.mono {moves moves' : Prop} (h : rows.Edit moves changes) (hmoves : moves → moves') :
    rows.Edit moves' changes := by
  cases h
  case nothing => exact .nothing
  case make counter next present directory free kind_eq leases =>
    exact .make counter next present directory free kind_eq leases
  case drop present below empty => exact .drop present below empty
  case move allowed present below goal directory free =>
    exact .move (hmoves allowed) present below goal directory free
  case append counter next present file => exact .append counter next present file

theorem node_eq_of_mem (hm : .node m ∈ rows.toList) (hn : .node n ∈ rows.toList) (h : m.id = n.id) :
    m = n :=
  Row.node.inj (SortedBy.eq_of_mem hm hn (congrArg Key.node h))

theorem isRoot_iff : n.isRoot ↔ n.id = .root := by
  simp [Node.isRoot]

theorem Hierarchy.eq_root (h : rows.Hierarchy) (hn : .node n ∈ rows.toList) (hroot : n.isRoot) :
    n = .root :=
  node_eq_of_mem hn h.root (isRoot_iff.mp hroot)

theorem find?_apply {change : Change} {key : Key} (h : change.key ≠ key) :
    (rows.apply change).find? key = rows.find? key := by
  cases change
  case upsert row => exact (SortedBy.find?_insert ..).trans (if_neg h)
  case remove k => exact (SortedBy.find?_erase ..).trans (if_neg h)

theorem find?_applyAll {key : Key} (h : ∀ change ∈ changes, change.key ≠ key) :
    (rows.applyAll changes).find? key = rows.find? key := by
  induction changes generalizing rows
  case nil => rfl
  case cons change changes ih =>
    rw [applyAll, List.foldl_cons]
    exact (ih fun c hc => h c (List.mem_cons_of_mem _ hc)).trans
      (find?_apply (h change List.mem_cons_self))

theorem applyAll_append {before after : List Change} :
    rows.applyAll (before ++ after) = (rows.applyAll before).applyAll after :=
  List.foldl_append

-- The last change of a key counts.
theorem find?_applyAll_upsert (before : List Change) {after : List Change} {row : Row}
    (h : ∀ change ∈ after, change.key ≠ row.key) :
    (rows.applyAll (before ++ .upsert row :: after)).find? row.key = some row := by
  rw [applyAll_append, applyAll, List.foldl_cons]
  exact (find?_applyAll h).trans ((SortedBy.find?_insert ..).trans (if_pos rfl))

theorem find?_applyAll_remove {before after : List Change} {key : Key}
    (h : ∀ change ∈ after, change.key ≠ key) :
    (rows.applyAll (before ++ .remove key :: after)).find? key = none := by
  rw [applyAll_append, applyAll, List.foldl_cons]
  exact (find?_applyAll h).trans ((SortedBy.find?_erase ..).trans (if_pos rfl))

theorem mem_applyAll {row : Row} (h : ∀ change ∈ changes, change.key ≠ row.key) :
    row ∈ (rows.applyAll changes).toList ↔ row ∈ rows.toList := by
  rw [SortedBy.mem_iff_find?, SortedBy.mem_iff_find?, find?_applyAll h]

theorem mem_or_upsert {row : Row} (h : row ∈ (rows.applyAll changes).toList) :
    row ∈ rows.toList ∨ .upsert row ∈ changes := by
  induction changes generalizing rows
  case nil => exact .inl h
  case cons change changes ih =>
    obtain h | h := ih h
    · cases change
      case upsert new =>
        obtain rfl | ⟨h, -⟩ := SortedBy.mem_insert_iff.mp h
        · exact .inr List.mem_cons_self
        · exact .inl h
      case remove => exact .inl (SortedBy.mem_erase_iff.mp h).1
    · exact .inr (List.mem_cons_of_mem _ h)

-- A row is as it was, or as it was last written.
theorem find?_applyAll_or (key : Key) :
    (rows.applyAll changes).find? key = rows.find? key ∨ .remove key ∈ changes ∨
      ∃ row, .upsert row ∈ changes ∧ row.key = key ∧ (rows.applyAll changes).find? key = some row := by
  induction changes generalizing rows
  case nil => exact .inl rfl
  case cons change changes ih =>
    obtain h | h | ⟨row, hrow, hkey, h⟩ := @ih (rows.apply change)
    · by_cases hkey : change.key = key
      case neg => exact .inl (h.trans (find?_apply hkey))
      case pos =>
        cases change
        case upsert row =>
          refine .inr (.inr ⟨row, List.mem_cons_self, hkey, h.trans ?_⟩)
          exact (SortedBy.find?_insert ..).trans (if_pos hkey)
        case remove k => exact .inr (.inl (hkey ▸ List.mem_cons_self))
    · exact .inr (.inl (List.mem_cons_of_mem _ h))
    · exact .inr (.inr ⟨row, List.mem_cons_of_mem _ hrow, hkey, h⟩)

-- After a write of one node, it is there, and so are all nodes of other ids.
def Puts (rows rows' : Rows) (new : Node) : Prop :=
  ∀ n : Node, .node n ∈ rows'.toList ↔ n = new ∨ .node n ∈ rows.toList ∧ n.id ≠ new.id

def Drops (rows rows' : Rows) (id : NodeId) : Prop :=
  ∀ n : Node, .node n ∈ rows'.toList ↔ .node n ∈ rows.toList ∧ n.id ≠ id

-- The change is to no node.
def Aside (change : Change) : Prop :=
  ∀ id, change.key ≠ .node id

variable {rows' : Rows} {new : Node} {id : NodeId}

theorem puts_applyAll (before after : List Change) (hbefore : ∀ change ∈ before, Aside change)
    (hafter : ∀ change ∈ after, Aside change) (new : Node) :
    Puts rows (rows.applyAll (before ++ .upsert (.node new) :: after)) new := by
  intro n
  by_cases hid : n.id = new.id
  case pos =>
    have hfind : (rows.applyAll (before ++ .upsert (.node new) :: after)).find? (.node new.id) =
        some (.node new) := find?_applyAll_upsert _ fun change hc => hafter change hc new.id
    rw [SortedBy.mem_iff_find?, Row.key, hid, hfind]
    simp [eq_comm]
  case neg =>
    rw [mem_applyAll]
    · have hne : n ≠ new := fun heq => hid (heq ▸ rfl)
      simp [hid, hne]
    · intro change hc
      obtain hc | hc := List.mem_append.mp hc
      · exact hbefore change hc n.id
      · obtain rfl | hc := List.mem_cons.mp hc
        · exact fun heq => hid (Key.node.inj heq).symm
        · exact hafter change hc n.id

theorem drops_applyAll (before : List Change) (hbefore : ∀ change ∈ before, Aside change)
    (id : NodeId) : Drops rows (rows.applyAll (before ++ [.remove (.node id)])) id := by
  intro n
  by_cases hid : n.id = id
  case pos =>
    have hfind : (rows.applyAll (before ++ [.remove (.node id)])).find? (.node id) = none :=
      find?_applyAll_remove (by simp)
    rw [SortedBy.mem_iff_find?, Row.key, hid, hfind]
    simp
  case neg =>
    rw [mem_applyAll]
    · simp [hid]
    · intro change hc
      obtain hc | hc := List.mem_append.mp hc
      · exact hbefore change hc n.id
      · cases List.mem_singleton.mp hc
        exact fun heq => hid (Key.node.inj heq).symm

theorem aside_leases {more : List Change}
    (h : ∀ change ∈ more, ∃ lease, change = .upsert (.lease lease) ∧ rows.Extends lease) :
    ∀ change ∈ more, Aside change := by
  rintro change hc id
  obtain ⟨lease, rfl, -⟩ := h change hc
  exact fun heq => by cases heq

theorem puts_make {dir id : NodeId} {next : UInt64} {name : String} {kind : NodeKind}
    {more : List Change}
    (hleases : ∀ change ∈ more, ∃ lease, change = .upsert (.lease lease) ∧ rows.Extends lease) :
    Puts rows (rows.applyAll ([.upsert (.register ⟨.nodeIdCounter, next⟩),
      .upsert (.node ⟨id, dir, name, kind, []⟩)] ++ more)) ⟨id, dir, name, kind, []⟩ :=
  puts_applyAll [.upsert (.register ⟨.nodeIdCounter, next⟩)] more
    (by simp [Aside, Change.key, Row.key]) (aside_leases hleases) _

theorem node_of_make {next : UInt64} {more : List Change}
    (hleases : ∀ change ∈ more, ∃ lease, change = .upsert (.lease lease) ∧ rows.Extends lease)
    (hn : .upsert (.node n) ∈
      [.upsert (.register ⟨.nodeIdCounter, next⟩), .upsert (.node new)] ++ more) : n = new := by
  obtain hn | hn := List.mem_append.mp hn
  · simpa using hn
  · obtain ⟨_, heq, -⟩ := hleases _ hn
    cases heq

theorem puts_move : Puts rows (rows.applyAll [.upsert (.node new)]) new :=
  puts_applyAll [] [] (by simp) (by simp) new

theorem puts_append {next stamp : UInt64} {block : Block} :
    Puts rows (rows.applyAll [.upsert (.register ⟨.blockIdCounter, next⟩),
      .upsert (.register ⟨.generationStamp, stamp⟩), .upsert (.node new),
      .upsert (.block block)]) new :=
  puts_applyAll [.upsert (.register ⟨.blockIdCounter, next⟩),
    .upsert (.register ⟨.generationStamp, stamp⟩)] [.upsert (.block block)]
    (by simp [Aside, Change.key, Row.key]) (by simp [Aside, Change.key, Row.key]) new

theorem drops_drop (blocks : List Block) :
    Drops rows (rows.applyAll (blocks.map (fun block => .remove (.block block.id)) ++
      [.remove (.node id)])) id :=
  drops_applyAll (blocks.map fun block => .remove (.block block.id))
    (by simp [Aside, Change.key]) id

theorem mem_children_iff {dir : NodeId} :
    .node n ∈ rows.lookupList (.children dir) ↔
      .node n ∈ rows.toList ∧ ¬n.isRoot ∧ n.parent = dir := by
  rw [mem_lookupList_iff, Finder.lists, isEntryOf_iff]

theorem name_ne_of_free {dir : NodeId} {name : String}
    (hfree : rows.lookup (.nodeNamed dir name) = none) (hn : .node n ∈ rows.toList)
    (hbelow : ¬n.isRoot) (hparent : n.parent = dir) : n.name ≠ name := by
  rintro rfl
  have := lookup_eq_none_iff.mp hfree _ hn
  have hentry := isEntryOf_iff.mpr ⟨hbelow, hparent⟩
  simp [Finder.selects, hentry] at this

theorem Hierarchy.put (h : rows.Hierarchy) (hputs : Puts rows rows' new) (hroot : ¬new.isRoot)
    (hdir : ∃ dir : Node, .node dir ∈ rows.toList ∧ dir.id = new.parent ∧ dir.isDirectory)
    (hkind : ∀ old : Node, .node old ∈ rows.toList → old.id = new.id → old.isDirectory →
      new.isDirectory)
    (hfree : ∀ n : Node, .node n ∈ rows.toList → n.id ≠ new.id → ¬n.isRoot →
      n.parent = new.parent → n.name ≠ new.name) : rows'.Hierarchy where
  root := (hputs .root).mpr (.inr ⟨h.root, fun heq => hroot (by simp [Node.isRoot, ← heq, Node.root])⟩)
  parent {n} hn hbelow := by
    have hdir : ∃ dir : Node, .node dir ∈ rows.toList ∧ dir.id = n.parent ∧ dir.isDirectory := by
      obtain rfl | ⟨hn, -⟩ := (hputs n).mp hn
      · exact hdir
      · exact h.parent hn hbelow
    obtain ⟨dir, hmem, hid, hd⟩ := hdir
    by_cases heq : dir.id = new.id
    case pos =>
      exact ⟨new, (hputs new).mpr (.inl rfl), heq.symm.trans hid, hkind dir hmem heq hd⟩
    case neg => exact ⟨dir, (hputs dir).mpr (.inr ⟨hmem, heq⟩), hid, hd⟩
  unique {m n} hm hn hmb hnb hparent hname := by
    obtain rfl | ⟨hm, hmid⟩ := (hputs m).mp hm
    · obtain rfl | ⟨hn, hnid⟩ := (hputs n).mp hn
      · rfl
      · exact absurd hname.symm (hfree n hn hnid hnb hparent.symm)
    · obtain rfl | ⟨hn, hnid⟩ := (hputs n).mp hn
      · exact absurd hname (hfree m hm hmid hmb hparent)
      · exact h.unique hm hn hmb hnb hparent hname

theorem Hierarchy.drop (h : rows.Hierarchy) (hdrops : Drops rows rows' n.id)
    (hn : .node n ∈ rows.toList) (hroot : ¬n.isRoot)
    (hempty : n.isDirectory → rows.lookupList (.children n.id) = []) : rows'.Hierarchy where
  root := (hdrops .root).mpr ⟨h.root, fun heq => hroot (by simp [Node.isRoot, ← heq, Node.root])⟩
  parent {m} hm hbelow := by
    have ⟨hm, _⟩ := (hdrops m).mp hm
    have ⟨dir, hmem, hid, hdir⟩ := h.parent hm hbelow
    refine ⟨dir, (hdrops dir).mpr ⟨hmem, fun heq => ?_⟩, hid, hdir⟩
    cases node_eq_of_mem hmem hn heq
    have := mem_children_iff.mpr ⟨hm, hbelow, hid.symm⟩
    simp [hempty hdir] at this
  unique hm hn := h.unique ((hdrops _).mp hm).1 ((hdrops _).mp hn).1

-- A file is not the root.
theorem Hierarchy.file_below (h : rows.Hierarchy) (hn : .node n ∈ rows.toList) (hfile : n.isFile) :
    ¬n.isRoot := by
  intro hroot
  cases h.eq_root hn hroot
  cases hfile

theorem toNat_of_next? {value id : UInt64} (h : Counter.next? value = some id) :
    id.toNat = value.toNat + 1 :=
  Counter.toNat_of_add? h

-- A node with the next id is new.
theorem Numbered.fresh (h : rows.Numbered) {value id : UInt64}
    (hcounter : rows.counterAt .nodeIdCounter value) (hnext : Counter.next? value = some id) :
    id.toNat ≠ 0 ∧ ∀ n : Node, .node n ∈ rows.toList → n.id ≠ ⟨id⟩ := by
  have hid := toNat_of_next? hnext
  refine ⟨by omega, fun n hn heq => ?_⟩
  obtain ⟨value', hcounter', hle⟩ := h.node
  cases hcounter.symm.trans hcounter'
  have : n.id.value.toNat ≤ value.toNat := hle n hn
  rw [show n.id.value = id from congrArg NodeId.value heq] at this
  omega

theorem Edit.hierarchy {moves : Prop} (h : rows.Edit moves changes) (hrows : rows.Hierarchy) (hids : rows.Numbered) :
    (rows.applyAll changes).Hierarchy := by
  cases h
  case nothing => exact hrows
  case make dir name kind value id more counter next present directory free kind_eq leases =>
    obtain ⟨hpos, hfresh⟩ := hids.fresh counter next
    refine hrows.put (puts_make leases) ?_ ⟨dir, present, rfl, directory⟩ ?_ ?_
    · intro hroot
      have : (⟨id⟩ : NodeId) = .root := by simpa [Node.isRoot] using hroot
      exact hpos (by rw [NodeId.mk.inj this]; rfl)
    · exact fun old hold heq => absurd heq (hfresh old hold)
    · exact fun n hn _ hbelow hparent => name_ne_of_free free hn hbelow hparent
  case drop n blocks present below empty =>
    exact hrows.drop (drops_drop blocks) present below empty
  case move n dir name allowed present below goal directory free =>
    refine hrows.put puts_move below ⟨dir, goal, rfl, directory⟩ ?_ ?_
    · intro old hold heq hdir
      cases node_eq_of_mem hold present heq
      exact hdir
    · exact fun m hm _ hbelow hparent => name_ne_of_free free hm hbelow hparent
  case append n value id stamp counter next present file =>
    have hbelow := hrows.file_below present file
    refine hrows.put puts_append hbelow (hrows.parent (n := n) present hbelow) ?_ ?_
    · intro old hold heq hdir
      cases node_eq_of_mem hold present heq
      exact hdir
    · rintro m hm hid hmb hparent hname
      cases hrows.unique hm present hmb hbelow hparent hname
      exact hid rfl

theorem counterAt_applyAll {counter : Register} {value : UInt64} (hvalue : rows.counterAt counter value)
    (h : ∀ change ∈ changes, change.key ≠ .register counter) :
    (rows.applyAll changes).counterAt counter value :=
  (find?_applyAll h).trans hvalue

-- A removal leaves the counters alone.
theorem counterAt_drop {counter : Register} {value : UInt64} {blocks : List Block}
    (hvalue : rows.counterAt counter value) :
    (rows.applyAll (blocks.map (fun block => .remove (.block block.id)) ++
      [.remove (.node id)])).counterAt counter value := by
  refine counterAt_applyAll hvalue fun change hc => ?_
  obtain hc | hc := List.mem_append.mp hc
  · obtain ⟨block, -, rfl⟩ := List.mem_map.mp hc
    simp [Change.key]
  · cases List.mem_singleton.mp hc
    simp [Change.key]

theorem Edit.kind_of_upsert {moves : Prop} (h : rows.Edit moves changes) (hids : rows.Numbered)
    (hn : .upsert (.node n) ∈ changes) : n.isDirectory ∨ n.isFile := by
  cases h
  case nothing => cases hn
  case make dir name kind value id more counter next present directory free kind_eq leases =>
    cases node_of_make leases hn
    exact kind_eq.imp (by rintro rfl; rfl) (by rintro rfl; rfl)
  case drop => simp at hn
  case move old dir name allowed present below goal directory free =>
    have hn : n = { old with parent := dir.id, name } := by simpa using hn
    exact hn ▸ hids.kind (n := old) present
  case append old value id stamp counter next present file =>
    have hn : n = { old with blocks := old.blocks ++ [⟨id⟩] } := by simpa using hn
    exact hn ▸ hids.kind (n := old) present

-- A node is made with the counter's new value; other edits leave the counter alone.
theorem Edit.nodeCounter {moves : Prop} (h : rows.Edit moves changes) (hids : rows.Numbered)
    {value : UInt64} (hvalue : rows.counterAt .nodeIdCounter value) :
    ∃ value', (rows.applyAll changes).counterAt .nodeIdCounter value' ∧ value.toNat ≤ value'.toNat ∧
      ∀ n : Node, .upsert (.node n) ∈ changes → n.id.value.toNat ≤ value'.toNat := by
  have hold : ∀ n : Node, .node n ∈ rows.toList → n.id.value.toNat ≤ value.toNat := by
    obtain ⟨value', hvalue', hle⟩ := hids.node
    cases hvalue.symm.trans hvalue'
    exact fun _ => hle _
  cases h
  case nothing => exact ⟨value, hvalue, le_rfl, by simp⟩
  case make dir name kind value' id more counter next present directory free kind_eq leases =>
    cases hvalue.symm.trans counter
    have hid := toNat_of_next? next
    refine ⟨id, find?_applyAll_upsert [] ?_, by omega, fun n hn => ?_⟩
    · rintro change hc
      obtain rfl | hc := List.mem_cons.mp hc
      · exact fun heq => by cases heq
      · obtain ⟨lease, rfl, -⟩ := leases change hc
        exact fun heq => by cases heq
    · cases node_of_make leases hn
      exact le_rfl
  case drop => exact ⟨value, counterAt_drop hvalue, le_rfl, by simp⟩
  case move n dir name allowed present below goal directory free =>
    refine ⟨value, counterAt_applyAll hvalue (by simp [Change.key, Row.key]), le_rfl, ?_⟩
    simpa using hold n present
  case append n value' id stamp counter next present file =>
    refine ⟨value, counterAt_applyAll hvalue (by simp [Change.key, Row.key]), le_rfl, ?_⟩
    simpa using hold n present

theorem Edit.blockCounter {moves : Prop} (h : rows.Edit moves changes) {value : UInt64}
    (hvalue : rows.counterAt .blockIdCounter value) :
    ∃ value', (rows.applyAll changes).counterAt .blockIdCounter value' ∧
      value.toNat ≤ value'.toNat ∧
      ∀ b : Block, .upsert (.block b) ∈ changes → b.id.value.toNat ≤ value'.toNat := by
  cases h
  case nothing => exact ⟨value, hvalue, le_rfl, by simp⟩
  case make dir name kind value' id more counter next present directory free kind_eq leases =>
    refine ⟨value, counterAt_applyAll hvalue fun change hc => ?_, le_rfl, fun b hb => ?_⟩
    · obtain hc | hc := List.mem_append.mp hc
      · obtain rfl | rfl : change = _ ∨ change = _ := by simpa using hc
        all_goals simp [Change.key, Row.key]
      · obtain ⟨lease, rfl, -⟩ := leases change hc
        simp [Change.key, Row.key]
    · obtain hb | hb := List.mem_append.mp hb
      · simp at hb
      · obtain ⟨_, heq, -⟩ := leases _ hb
        cases heq
  case drop => exact ⟨value, counterAt_drop hvalue, le_rfl, by simp⟩
  case move n dir name allowed present below goal directory free =>
    exact ⟨value, counterAt_applyAll hvalue (by simp [Change.key, Row.key]), le_rfl, by simp⟩
  case append n value' id stamp counter next present file =>
    cases hvalue.symm.trans counter
    have hid := toNat_of_next? next
    refine ⟨id, find?_applyAll_upsert [] (by simp [Change.key, Row.key]), by omega, ?_⟩
    simp [Block.fresh]

theorem Edit.numbered {moves : Prop} (h : rows.Edit moves changes) (hids : rows.Numbered) :
    (rows.applyAll changes).Numbered where
  kind {n} hn := (mem_or_upsert hn).elim hids.kind (h.kind_of_upsert hids)
  node := by
    obtain ⟨value, hvalue, hle⟩ := hids.node
    obtain ⟨value', hvalue', hgrow, hnew⟩ := h.nodeCounter hids hvalue
    refine ⟨value', hvalue', fun n hn => ?_⟩
    obtain hn | hn := mem_or_upsert hn
    · exact Nat.le_trans (hle n hn) hgrow
    · exact hnew n hn
  block := by
    obtain ⟨value, hvalue, hle⟩ := hids.block
    obtain ⟨value', hvalue', hgrow, hnew⟩ := h.blockCounter hvalue
    refine ⟨value', hvalue', fun b hb => ?_⟩
    obtain hb | hb := mem_or_upsert hb
    · exact Nat.le_trans (hle b hb) hgrow
    · exact hnew b hb

end Rows

end NamespaceService
