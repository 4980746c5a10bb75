import NamespaceService.Proofs.Namespace.FileTree

namespace NamespaceService

open Namespace

namespace Row

theorem eq_register_of_key {row : Row} {register : Register} (h : row.key = .register register) :
    ∃ value, row = .register ⟨register, value⟩ := by
  cases row
  case register entry =>
    cases Key.register.inj h
    exact ⟨entry.value, rfl⟩
  case replica r =>
    rw [key] at h
    split at h <;> cases h
  all_goals cases h

end Row

namespace Rows

variable {rows : Rows} {register : Register} {value id stamp : UInt64} {dir n : Node} {name : String}
  {p q start : Position} {kind : NodeKind} {more changes : List Change} {blocks : List Block}

theorem lookup_of_place_none (hdir : rows.place q = some dir) (hkind : dir.isDirectory)
    (hfree : rows.place (q ++ [name]) = none) : rows.lookup (.nodeNamed dir.id name) = none := by
  rw [place_concat, hdir, Option.bind_some, entryNamed?, if_pos hkind] at hfree
  cases hfound : rows.lookup (.nodeNamed dir.id name)
  case none => rfl
  case some row =>
    obtain ⟨n, rfl, -⟩ := Finder.selects_nodeNamed (mem_of_lookup hfound).2
    rw [hfound] at hfree
    cases hfree

theorem children_eq_nil {dir : NodeId} (h : childrenIn rows dir = []) :
    rows.lookupList (.children dir) = [] := by
  refine List.eq_nil_iff_forall_not_mem.mpr fun row hrow => ?_
  obtain ⟨-, hlists⟩ := mem_lookupList_iff.mp hrow
  cases row
  case node n => exact absurd (List.filterMap_eq_nil_iff.mp h _ hrow) (by simp [Row.node?])
  all_goals simp [Finder.lists] at hlists

-- The entries of a directory are at the places below it.
theorem Hierarchy.mem_childrenIn_iff {k : Node} (h : rows.Hierarchy) (hn : rows.place p = some n)
    (hdir : n.isDirectory) : k ∈ childrenIn rows n.id ↔ rows.place (p ++ [k.name]) = some k := by
  rw [Namespace.mem_childrenIn_iff]
  constructor
  case mp =>
    rintro ⟨hk, hbelow, hparent⟩
    exact h.place_of_entry hn hdir hk hbelow hparent
  case mpr =>
    intro hk
    obtain ⟨dir, hdir', -, hk, hbelow, hparent, -⟩ := Rows.entry_of_place hk
    cases hn.symm.trans hdir'
    exact ⟨hk, hbelow, hparent⟩

theorem Hierarchy.childrenIn_eq_nil_iff (h : rows.Hierarchy) (hn : rows.place p = some n)
    (hdir : n.isDirectory) :
    childrenIn rows n.id = [] ↔ ∀ name, rows.place (p ++ [name]) = none := by
  constructor
  case mp =>
    intro hempty name
    cases hk : rows.place (p ++ [name])
    case none => rfl
    case some k =>
      have hname := (Rows.entry_of_place hk).choose_spec.2.2.2.2.2
      have := (h.mem_childrenIn_iff hn hdir).mpr (hname ▸ hk)
      simp [hempty] at this
  case mpr =>
    intro hnone
    refine List.eq_nil_iff_forall_not_mem.mpr fun k hk => ?_
    cases (hnone k.name).symm.trans ((h.mem_childrenIn_iff hn hdir).mp hk)

theorem nodup_childrenIn {dir : NodeId} : (childrenIn rows dir).Nodup := by
  have hrows : rows.toList.Nodup := rows.sorted.imp fun hlt heq => hlt.ne (congrArg Row.key heq)
  refine (hrows.filter _).filterMap fun row row' n hn hn' => ?_
  cases row <;> cases hn
  cases row' <;> cases hn'
  rfl

-- Counters stay.
theorem Edit.counter {moves : Prop} (h : rows.Edit moves changes)
    (hcounter : ∃ value, rows.counterAt register value) :
    ∃ value, (rows.applyAll changes).counterAt register value := by
  obtain ⟨value, hvalue⟩ := hcounter
  obtain hsame | hremove | ⟨row, -, hkey, hnew⟩ := find?_applyAll_or (.register register)
  · exact ⟨value, hsame.trans hvalue⟩
  · exact absurd hremove (h.not_remove (by simp) (by simp))
  · obtain ⟨value', rfl⟩ := Row.eq_register_of_key hkey
    exact ⟨value', hnew⟩

theorem relocate_self {new : Node} (hn : rows.place start = some n)
    (hid : new.id = n.id) :
    relocate start start rows.place new p = if p = start then some new else rows.place p := by
  by_cases hp : start <+: p
  case neg =>
    have hne : p ≠ start := by
      rintro rfl
      exact hp List.prefix_rfl
    rw [relocate_aside hp, if_neg hp, if_neg hne]
  case pos =>
    obtain ⟨r, rfl⟩ := hp
    rw [relocate_below]
    cases r
    case nil => simp [hn, written, hid]
    case cons name r =>
      rw [if_neg (by simp)]
      cases hm : rows.place (start ++ name :: r)
      case none => rfl
      case some m =>
        have hne : m.id ≠ new.id := fun heq => by
          have := Rows.place_injective hm hn (heq.trans hid)
          simp at this
        rw [Option.map_some, written, if_neg hne]

namespace Arranged

variable (h : rows.Arranged)

include h

theorem edit (hedit : rows.Edit True changes) (hplaced : ∀ n : Node,
      .node n ∈ (rows.applyAll changes).toList → ∃ p, (rows.applyAll changes).place p = some n) :
    (rows.applyAll changes).Arranged where
  hierarchy := hedit.hierarchy h.hierarchy h.numbered
  numbered := hedit.numbered h.numbered
  stamp := hedit.counter h.stamp
  placed := hplaced _

-- A node is made in a directory.
theorem make (more : List Change) (hdir : rows.place q = some dir) (hdirectory : dir.isDirectory)
    (hfree : rows.place (q ++ [name]) = none) (hcounter : rows.counterAt .nodeIdCounter value)
    (hnext : Counter.next? value = some id) (hkind : kind = .directory ∨ kind = .file)
    (hmore : ∀ change ∈ more, ∃ lease, change = .upsert (.lease lease) ∧ rows.Extends lease) :
    let rows' := rows.applyAll ([.upsert (.register ⟨.nodeIdCounter, id⟩),
      .upsert (.node ⟨⟨id⟩, dir.id, name, kind, []⟩)] ++ more)
    rows'.Arranged ∧ ∀ p, rows'.place p =
      if p = q ++ [name] then some ⟨⟨id⟩, dir.id, name, kind, []⟩ else rows.place p := by
  intro rows'
  have hedit : rows.Edit True _ := .make hcounter hnext (Rows.mem_of_place hdir) hdirectory
    (lookup_of_place_none hdir hdirectory hfree) hkind hmore
  have hputs : Puts rows rows' ⟨⟨id⟩, dir.id, name, kind, []⟩ := puts_make hmore
  obtain ⟨hpos, hfresh⟩ := h.numbered.fresh hcounter hnext
  have hbelow : ¬(⟨⟨id⟩, dir.id, name, kind, []⟩ : Node).isRoot := fun hroot => by
    have : (⟨id⟩ : NodeId) = .root := isRoot_iff.mp hroot
    exact hpos (by rw [NodeId.mk.inj this]; rfl)
  have hplace (p : Position) := hputs.place_made (p := p) h.hierarchy
    (hedit.hierarchy h.hierarchy h.numbered) hfresh hdir hdirectory hbelow rfl hfree
  refine ⟨h.edit hedit fun n hn => ?_, hplace⟩
  obtain rfl | ⟨hn, -⟩ := (hputs _).mp hn
  · exact ⟨q ++ [name], (hplace _).trans (if_pos rfl)⟩
  · obtain ⟨p, hp⟩ := h.placed hn
    have hne : p ≠ q ++ [name] := by
      rintro rfl
      cases hfree.symm.trans hp
    exact ⟨p, (hplace p).trans ((if_neg hne).trans hp)⟩

-- A node without entries is removed.
theorem drop (blocks : List Block) (hn : rows.place q = some n) (hbelow : ¬n.isRoot)
    (hempty : n.isDirectory → childrenIn rows n.id = []) :
    let rows' := rows.applyAll (blocks.map (fun block => .remove (.block block.id)) ++
      [.remove (.node n.id)])
    rows'.Arranged ∧ ∀ p, rows'.place p = if p = q then none else rows.place p := by
  intro rows'
  have hedit : rows.Edit True (blocks.map (fun block => .remove (.block block.id)) ++
      [.remove (.node n.id)]) :=
    .drop (Rows.mem_of_place hn) hbelow fun hdir => children_eq_nil (hempty hdir)
  have hdrops : Drops rows rows' n.id := drops_drop blocks
  have hbare (name : String) : rows.place (q ++ [name]) = none := by
    by_cases hdir : n.isDirectory
    case pos => exact (h.hierarchy.childrenIn_eq_nil_iff hn hdir).mp (hempty hdir) name
    case neg => rw [place_concat, hn, Option.bind_some, entryNamed?, if_neg hdir]
  have hplace (p : Position) := hdrops.place_eq (p := p) h.hierarchy
    (hedit.hierarchy h.hierarchy h.numbered) hn hbelow hbare
  refine ⟨h.edit hedit fun m hm => ?_, hplace⟩
  obtain ⟨hm, hid⟩ := (hdrops m).mp hm
  obtain ⟨p, hp⟩ := h.placed hm
  have hne : p ≠ q := by
    rintro rfl
    cases hn.symm.trans hp
    exact hid rfl
  exact ⟨p, (hplace p).trans ((if_neg hne).trans hp)⟩

-- A node is written anew, at the same place or at a free one.
theorem write {new : Node} {goal : Position} (hedit : rows.Edit True changes)
    (hputs : Puts rows (rows.applyAll changes) new) (hn : rows.place start = some n)
    (hid : new.id = n.id) (hbelow : ¬n.isRoot) (hdir : rows.place q = some dir)
    (hparent : new.parent = dir.id) (hgoal : goal = q ++ [new.name])
    (hkind : new.isDirectory = n.isDirectory) (hdirectory : dir.isDirectory)
    (hout : start = goal ∨ ¬start <+: goal ∧ rows.place goal = none) :
    (rows.applyAll changes).Arranged ∧
      ∀ p, (rows.applyAll changes).place p = relocate start goal rows.place new p := by
  subst hgoal
  have hplace (p : Position) := hputs.place_eq (p := p) h.hierarchy
    (hedit.hierarchy h.hierarchy h.numbered) hn hid hbelow hdir hparent
    (fun hprefix => hout.resolve_right fun hfree => hfree.1 hprefix) hkind hdirectory
  refine ⟨h.edit hedit fun m hm => ?_, hplace⟩
  obtain rfl | ⟨hm, hne⟩ := (hputs m).mp hm
  · refine ⟨q ++ [m.name] ++ [], (hplace _).trans ?_⟩
    rw [relocate_below, List.append_nil, hn, Option.map_some, written, if_pos hid.symm]
  · obtain ⟨p, hp⟩ := h.placed hm
    by_cases hstart : start <+: p
    case pos =>
      obtain ⟨r, rfl⟩ := hstart
      refine ⟨q ++ [new.name] ++ r, (hplace _).trans ?_⟩
      rw [relocate_below, hp, Option.map_some, written, if_neg hne]
    case neg =>
      have haside : ¬q ++ [new.name] <+: p := by
        obtain rfl | ⟨-, hfree⟩ := hout
        · exact hstart
        · intro hprefix
          cases (place_none_of_above hfree hprefix).symm.trans hp
      exact ⟨p, (hplace p).trans ((relocate_aside haside).trans ((if_neg hstart).trans hp))⟩

-- A node goes to a free place with all that is below it.
theorem move (hn : rows.place start = some n) (hbelow : ¬n.isRoot) (hdir : rows.place q = some dir)
    (hdirectory : dir.isDirectory) (hfree : rows.place (q ++ [name]) = none)
    (hout : ¬start <+: q ++ [name]) :
    let rows' := rows.applyAll [.upsert (.node { n with parent := dir.id, name })]
    rows'.Arranged ∧ ∀ p, rows'.place p =
      relocate start (q ++ [name]) rows.place { n with parent := dir.id, name } p := by
  intro rows'
  have hedit : rows.Edit True [.upsert (.node { n with parent := dir.id, name })] :=
    .move trivial (Rows.mem_of_place hn) hbelow (Rows.mem_of_place hdir) hdirectory
      (lookup_of_place_none hdir hdirectory hfree)
  exact h.write hedit puts_move hn rfl hbelow hdir rfl rfl rfl
    hdirectory (.inr ⟨hout, hfree⟩)

-- A block is added to a file.
theorem append (stamp : UInt64) (hn : rows.place q = some n) (hfile : n.isFile)
    (hcounter : rows.counterAt .blockIdCounter value) (hnext : Counter.next? value = some id) :
    let rows' := rows.applyAll [.upsert (.register ⟨.blockIdCounter, id⟩),
      .upsert (.register ⟨.generationStamp, stamp⟩),
      .upsert (.node { n with blocks := n.blocks ++ [⟨id⟩] }), .upsert (.block (.fresh ⟨id⟩ n.id stamp))]
    rows'.Arranged ∧ ∀ p, rows'.place p =
      if p = q then some { n with blocks := n.blocks ++ [⟨id⟩] } else rows.place p := by
  intro rows'
  have hbelow := h.hierarchy.file_below (Rows.mem_of_place hn) hfile
  have hne : q ≠ [] := by
    rintro rfl
    cases h.hierarchy.place_nil.symm.trans hn
    exact hbelow rfl
  obtain ⟨above, name, rfl⟩ := (List.eq_nil_or_concat' _).resolve_left hne
  obtain ⟨dir, hdir, hkind, hmem, -, hparent, rfl⟩ := Rows.entry_of_place hn
  obtain ⟨h', hplace⟩ := h.write (.append hcounter hnext hmem hfile)
    puts_append hn rfl hbelow hdir hparent rfl rfl hkind (.inl rfl)
  exact ⟨h', fun p => (hplace p).trans (relocate_self hn rfl)⟩

end Arranged

variable (h : rows.Arranged)

theorem isDirectory_iff :
    (rows.tree h).IsDirectory p ↔ ∃ n, rows.place p = some n ∧ n.isDirectory := by
  simp [tree, FileTree.IsDirectory, Node.entry, Node.isDirectory]

theorem isFile_iff : (rows.tree h).IsFile p ↔ ∃ n, rows.place p = some n ∧ n.isFile := by
  simp [tree, FileTree.IsFile, Node.entry, Node.isFile]

theorem free_iff : (rows.tree h).Free p ↔ rows.place p = none ∧ p ≠ [] ∧
    ∃ dir, rows.place p.dropLast = some dir ∧ dir.isDirectory := by
  rw [FileTree.Free, isDirectory_iff]
  simp [tree]

theorem removable_iff : (rows.tree h).Removable p ↔ ∃ n, rows.place p = some n ∧ ¬n.isRoot ∧
    (n.isDirectory → childrenIn rows n.id = []) := by
  have hroot : ∀ n, rows.place p = some n → (n.isRoot ↔ p = []) := fun n hn => by
    constructor
    case mp => exact fun hr => Rows.place_injective hn h.hierarchy.place_nil (isRoot_iff.mp hr)
    case mpr =>
      rintro rfl
      cases h.hierarchy.place_nil.symm.trans hn
      rfl
  rw [FileTree.Removable, isFile_iff, isDirectory_iff]
  constructor
  case mp =>
    rintro ⟨hne, ⟨n, hn, hfile⟩ | ⟨⟨n, hn, hdir⟩, hbare⟩⟩
    · refine ⟨n, hn, mt (hroot n hn).mp hne, fun hdir => ?_⟩
      simp_all [Node.isFile, Node.isDirectory]
    · refine ⟨n, hn, mt (hroot n hn).mp hne, fun hdir => ?_⟩
      exact (h.hierarchy.childrenIn_eq_nil_iff hn hdir).mpr (by simpa [tree] using hbare)
  case mpr =>
    rintro ⟨n, hn, hbelow, hempty⟩
    refine ⟨mt (hroot n hn).mpr hbelow, ?_⟩
    obtain hdir | hfile := h.numbered.kind (Rows.mem_of_place hn)
    · have hbare := (h.hierarchy.childrenIn_eq_nil_iff hn hdir).mp (hempty hdir)
      exact .inr ⟨⟨n, hn, hdir⟩, by simpa [tree] using hbare⟩
    · exact .inl ⟨n, hn, hfile⟩

theorem tree_entry_update {rows' : Rows} {h' : rows'.Arranged} {found : Option Node}
    (hplace : ∀ p, rows'.place p = if p = q then found else rows.place p) :
    (rows'.tree h').entry = Function.update (rows.tree h).entry q (found.map Node.entry) := by
  funext p
  simp only [tree, hplace, Function.update_apply]
  split <;> rfl

-- The tree knows what the rows say of a node.
theorem tree_node? : (rows.tree h).node? p = rows.place p := by
  cases hn : rows.place p
  case none => simp [FileTree.node?, tree, hn]
  case some n =>
    cases p using List.reverseRecOn
    case nil =>
      cases h.hierarchy.place_nil.symm.trans hn
      simp [FileTree.node?, tree, h.hierarchy.place_nil, Node.entry, Node.root]
    case append_singleton q name _ =>
      obtain ⟨dir, hdir, -, -, -, hparent, rfl⟩ := Rows.entry_of_place hn
      simp [FileTree.node?, tree, hn, hdir, Node.entry, hparent.symm]

theorem tree_entry_relocate {rows' : Rows} {h' : rows'.Arranged} {new : Node} {goal : Position}
    (hn : rows.place start = some n)
    (hplace : ∀ p, rows'.place p = relocate start goal rows.place new p)
    (hentry : new.entry = n.entry) : (rows'.tree h').entry = (rows.tree h).move start goal := by
  have hwritten (q : Position) :
      ((rows.place q).map (written new)).map Node.entry = (rows.place q).map Node.entry := by
    cases hm : rows.place q
    case none => rfl
    case some m =>
      refine congrArg some (?_ : (written new m).entry = m.entry)
      rw [written]
      split
      case isFalse => rfl
      case isTrue hid =>
        have hsame : m = n := node_eq_of_mem (Rows.mem_of_place hm)
          (Rows.mem_of_place hn) (hid.trans (congrArg Entry.id hentry))
        rw [hsame, hentry]
  funext p
  simp only [tree, hplace, relocate, FileTree.move]
  split
  case isTrue => exact hwritten _
  case isFalse => split <;> rfl

-- No counter is at its last value.
def Spare (rows : Rows) : Prop :=
  ∀ register value, rows.counterAt register value → value.toNat + 1 < UInt64.size

-- A counter goes on, unless it is at its last value.
theorem successor_cases (hcounter : ∃ value, rows.counterAt register value) :
    (∃ value next, rows.counterAt register value ∧ Counter.next? value = some next ∧
      successor register (counterIn register rows) = .ok next) ∨
    ¬rows.Spare ∧ successor register (counterIn register rows) = .error .overflow := by
  obtain ⟨value, hvalue⟩ := hcounter
  have hcounter : counterIn register rows = some value := by
    rw [counterIn, valueOf, lookup_of_key? rfl, hvalue]
    rfl
  cases hnext : Counter.next? value
  case none =>
    refine .inr ⟨fun hspare => ?_, by simp [Namespace.successor, hcounter, hnext]⟩
    have hlast := Counter.add?_eq_none_iff.mp hnext
    have := hspare register value hvalue
    simp at hlast
    omega
  case some next =>
    refine .inl ⟨value, next, hvalue, hnext, ?_⟩
    simp [Namespace.successor, hcounter, hnext]

end Rows

end NamespaceService
