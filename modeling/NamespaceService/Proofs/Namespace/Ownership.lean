import Mathlib.Data.Fin.VecNotation
import NamespaceService.Proofs.Namespace.Hierarchy

namespace NamespaceService

open Timeline Context

namespace Rows

variable {rows rows' : Rows} {changes : List Change} {new n : Node} {b : Block}

-- What a node lists are blocks of its own, and a block is listed by the file that owns it.
structure Owned (rows : Rows) : Prop where
  distinct {n : Node} : .node n ∈ rows.toList → n.blocks.Nodup
  listed {n : Node} {id : BlockId} : .node n ∈ rows.toList → id ∈ n.blocks →
    ∃ b : Block, .block b ∈ rows.toList ∧ b.id = id ∧ b.owner = n.id
  owner {b : Block} : .block b ∈ rows.toList →
    ∃ n : Node, .node n ∈ rows.toList ∧ n.id = b.owner ∧ n.isFile ∧ b.id ∈ n.blocks

theorem block_eq_of_mem {b b' : Block} (hb : .block b ∈ rows.toList) (hb' : .block b' ∈ rows.toList)
    (h : b.id = b'.id) : b = b' :=
  Row.block.inj (SortedBy.eq_of_mem hb hb' (congrArg Key.block h))

theorem mem_blocks_iff {id : NodeId} :
    b ∈ (rows.lookupList (.blocksOf id)).filterMap Row.block? ↔
      .block b ∈ rows.toList ∧ b.owner = id := by
  rw [List.mem_filterMap]
  constructor
  case mp =>
    rintro ⟨row, hrow, heq⟩
    cases row <;> cases heq
    simpa [mem_lookupList_iff, Finder.lists] using hrow
  case mpr => exact fun h => ⟨.block b, by simpa [mem_lookupList_iff, Finder.lists] using h, rfl⟩

namespace Owned

theorem owner_eq (h : rows.Owned) (hn : .node n ∈ rows.toList) (hb : .block b ∈ rows.toList)
    (hmem : b.id ∈ n.blocks) : b.owner = n.id := by
  obtain ⟨b', hb', hid, howner⟩ := h.listed hn hmem
  rw [← block_eq_of_mem hb' hb hid, howner]

-- The owner is the only node that lists the block.
theorem listed_once (h : rows.Owned) (hb : .block b ∈ rows.toList) :
    ∃ n : Node, .node n ∈ rows.toList ∧ n.isFile ∧ n.id = b.owner ∧ b.id ∈ n.blocks ∧
      ∀ m : Node, .node m ∈ rows.toList → b.id ∈ m.blocks → m = n := by
  obtain ⟨n, hn, hid, hfile, hmem⟩ := h.owner hb
  refine ⟨n, hn, hfile, hid, hmem, fun m hm hmem' => node_eq_of_mem hm hn ?_⟩
  exact (h.owner_eq hm hb hmem').symm.trans hid.symm

theorem owner_file (h : rows.Owned) (hn : .node n ∈ rows.toList) (hb : .block b ∈ rows.toList)
    (howner : b.owner = n.id) : n.isFile := by
  obtain ⟨m, hm, hid, hfile, -⟩ := h.owner hb
  exact node_eq_of_mem hm hn (hid.trans howner) ▸ hfile

theorem directory_empty (h : rows.Owned) (hn : .node n ∈ rows.toList) (hdir : n.isDirectory) :
    n.blocks = [] := by
  refine List.eq_nil_iff_forall_not_mem.mpr fun id hid => ?_
  obtain ⟨b, hb, -, howner⟩ := h.listed hn hid
  have hfile : n.kind = .file := of_decide_eq_true (h.owner_file hn hb howner)
  have hkind : n.kind = .directory := of_decide_eq_true hdir
  cases hfile.symm.trans hkind

-- A node is written that lists what it did before, or nothing if it is new.
theorem put (h : rows.Owned) (hputs : Puts rows rows' new)
    (hblocks : ∀ b : Block, .block b ∈ rows'.toList ↔ .block b ∈ rows.toList)
    (hnew : new.blocks = [] ∨ ∃ old : Node, .node old ∈ rows.toList ∧ old.id = new.id ∧
      new.blocks = old.blocks)
    (hold : ∀ old : Node, .node old ∈ rows.toList → old.id = new.id →
      new.blocks = old.blocks ∧ new.kind = old.kind) : rows'.Owned where
  distinct {n} hn := by
    obtain rfl | ⟨hn, -⟩ := (hputs n).mp hn
    · obtain hnil | ⟨old, hmem, -, heq⟩ := hnew
      · exact hnil ▸ .nil
      · exact heq ▸ h.distinct hmem
    · exact h.distinct hn
  listed {n id} hn hid := by
    obtain ⟨m, hm, hmid, hmem⟩ : ∃ m : Node, .node m ∈ rows.toList ∧ m.id = n.id ∧ id ∈ m.blocks := by
      obtain rfl | ⟨hn, -⟩ := (hputs n).mp hn
      · obtain hnil | ⟨old, hmem, hold, heq⟩ := hnew
        · rw [hnil] at hid
          cases hid
        · exact ⟨old, hmem, hold, heq ▸ hid⟩
      · exact ⟨n, hn, rfl, hid⟩
    obtain ⟨b, hb, hbid, howner⟩ := h.listed hm hmem
    exact ⟨b, (hblocks b).mpr hb, hbid, howner.trans hmid⟩
  owner {b} hb := by
    obtain ⟨n, hn, hid, hfile, hmem⟩ := h.owner ((hblocks b).mp hb)
    by_cases heq : n.id = new.id
    case pos =>
      obtain ⟨hlist, hkind⟩ := hold n hn heq
      refine ⟨new, (hputs new).mpr (.inl rfl), heq.symm.trans hid, ?_, hlist ▸ hmem⟩
      rwa [Node.isFile, hkind]
    case neg => exact ⟨n, (hputs n).mpr (.inr ⟨hn, heq⟩), hid, hfile, hmem⟩

-- A new block is put at the end of its owner's list.
theorem append (h : rows.Owned) (hn : .node n ∈ rows.toList) (hfile : n.isFile)
    (howner : b.owner = n.id) (hputs : Puts rows rows' { n with blocks := n.blocks ++ [b.id] })
    (hblocks : ∀ a : Block, .block a ∈ rows'.toList ↔ a = b ∨ .block a ∈ rows.toList)
    (hfresh : ∀ a : Block, .block a ∈ rows.toList → a.id ≠ b.id) : rows'.Owned where
  distinct {m} hm := by
    obtain rfl | ⟨hm, -⟩ := (hputs m).mp hm
    · refine List.nodup_append.mpr ⟨h.distinct hn, List.nodup_singleton _, fun i hi j hj heq => ?_⟩
      obtain ⟨a, ha, haid, -⟩ := h.listed hn hi
      exact hfresh a ha (haid.trans (heq.trans (List.mem_singleton.mp hj)))
    · exact h.distinct hm
  listed {m i} hm hi := by
    obtain rfl | ⟨hm, -⟩ := (hputs m).mp hm
    · obtain hi | hi := List.mem_append.mp hi
      · obtain ⟨a, ha, haid, howner⟩ := h.listed hn hi
        exact ⟨a, (hblocks a).mpr (.inr ha), haid, howner⟩
      · exact ⟨b, (hblocks b).mpr (.inl rfl), (List.mem_singleton.mp hi).symm, howner⟩
    · obtain ⟨a, ha, haid, howner⟩ := h.listed hm hi
      exact ⟨a, (hblocks a).mpr (.inr ha), haid, howner⟩
  owner {a} ha := by
    obtain rfl | ha := (hblocks a).mp ha
    · exact ⟨_, (hputs _).mpr (.inl rfl), howner.symm, hfile, List.mem_append_right _ (.head _)⟩
    · obtain ⟨m, hm, hid, hfile', hmem⟩ := h.owner ha
      by_cases heq : m.id = n.id
      case pos =>
        cases node_eq_of_mem hm hn heq
        exact ⟨_, (hputs _).mpr (.inl rfl), hid, hfile, List.mem_append_left _ hmem⟩
      case neg => exact ⟨m, (hputs m).mpr (.inr ⟨hm, heq⟩), hid, hfile', hmem⟩

-- A node goes, and the blocks that it owns go with it.
theorem drop (h : rows.Owned) (hdrops : Drops rows rows' n.id)
    (hblocks : ∀ b : Block, .block b ∈ rows'.toList ↔ .block b ∈ rows.toList ∧ b.owner ≠ n.id) :
    rows'.Owned where
  distinct hm := h.distinct ((hdrops _).mp hm).1
  listed hm hi := by
    obtain ⟨hm, hne⟩ := (hdrops _).mp hm
    obtain ⟨b, hb, hbid, howner⟩ := h.listed hm hi
    exact ⟨b, (hblocks b).mpr ⟨hb, howner.symm ▸ hne⟩, hbid, howner⟩
  owner hb := by
    obtain ⟨hb, hne⟩ := (hblocks _).mp hb
    obtain ⟨m, hm, hid, hfile, hmem⟩ := h.owner hb
    exact ⟨m, (hdrops m).mpr ⟨hm, hid ▸ hne⟩, hid, hfile, hmem⟩

end Owned

-- A file goes with all of its blocks, and no block goes without its owner.
structure Clears (rows : Rows) (changes : List Change) : Prop where
  along {n : Node} {b : Block} : .node n ∈ rows.toList → n.isFile → .remove (.node n.id) ∈ changes →
    .block b ∈ rows.toList → b.owner = n.id → .remove (.block b.id) ∈ changes
  only {b : Block} : .block b ∈ rows.toList → .remove (.block b.id) ∈ changes →
    .remove (.node b.owner) ∈ changes

theorem Clears.of_upserts (h : ∀ change ∈ changes, ∃ row, change = .upsert row) :
    rows.Clears changes := by
  have hnone (key : Key) : .remove key ∉ changes := fun hmem => by
    obtain ⟨_, heq⟩ := h _ hmem
    cases heq
  exact ⟨fun _ _ hmem => absurd hmem (hnone _), fun _ hmem => absurd hmem (hnone _)⟩

theorem Clears.nil : rows.Clears [] :=
  .of_upserts (by simp)

-- A key that is removed and not written is free.
theorem find?_applyAll_none {key : Key} (hremove : .remove key ∈ changes)
    (hupsert : ∀ row, .upsert row ∈ changes → row.key ≠ key) :
    (rows.applyAll changes).find? key = none := by
  induction changes generalizing rows
  case nil => cases hremove
  case cons change changes ih =>
    by_cases hlater : .remove key ∈ changes
    case pos => exact ih hlater fun row hrow => hupsert row (List.mem_cons_of_mem _ hrow)
    case neg =>
      obtain rfl : .remove key = change := (List.mem_cons.mp hremove).resolve_right hlater
      refine @find?_applyAll_remove rows [] changes key fun c hc hkey => ?_
      cases c
      case upsert row => exact hupsert row (List.mem_cons_of_mem _ hc) hkey
      case remove k =>
        obtain rfl : k = key := hkey
        exact hlater hc

theorem Numbered.fresh_block (h : rows.Numbered) {value id : UInt64}
    (hcounter : rows.counterAt .blockIdCounter value) (hnext : Counter.next? value = some id)
    (hb : .block b ∈ rows.toList) : b.id ≠ ⟨id⟩ := by
  rintro heq
  obtain ⟨value', hcounter', hle⟩ := h.block
  cases hcounter.symm.trans hcounter'
  have hid := toNat_of_next? hnext
  have : b.id.value.toNat ≤ value.toNat := hle b hb
  rw [heq] at this
  simp only at this
  omega

-- A removal that takes a file's blocks along, and no others.
theorem Owned.removal {blocks : List Block} (h : rows.Owned) (hn : .node n ∈ rows.toList)
    (hclears : rows.Clears (blocks.map (fun block => .remove (.block block.id)) ++
      [.remove (.node n.id)])) :
    (rows.applyAll (blocks.map (fun block => .remove (.block block.id)) ++
      [.remove (.node n.id)])).Owned := by
  refine h.drop (drops_drop blocks) fun b => ⟨fun hb => ?_, fun hkept => ?_⟩
  · have hold : .block b ∈ rows.toList := (mem_or_upsert hb).resolve_right (by simp)
    refine ⟨hold, fun howner => ?_⟩
    have hgone := hclears.along hn (h.owner_file hn hold howner) (by simp) hold howner
    have hfree : (rows.applyAll _).find? (.block b.id) = none :=
      find?_applyAll_none hgone (by simp)
    cases hfree.symm.trans (SortedBy.find?_of_mem hb)
  · obtain ⟨hb, hne⟩ := hkept
    refine (mem_applyAll fun change hc hkey => hne ?_).mpr hb
    obtain hc | hc := List.mem_append.mp hc
    · obtain ⟨block, -, rfl⟩ := List.mem_map.mp hc
      have hid : block.id = b.id := Key.block.inj hkey
      have hmem := hclears.only hb (hid ▸ List.mem_append_left _ hc)
      simpa using hmem
    · cases List.mem_singleton.mp hc
      cases hkey

theorem Edit.owned {moves : Prop} (h : rows.Edit moves changes) (hclears : rows.Clears changes)
    (hids : rows.Numbered) (hrows : rows.Owned) : (rows.applyAll changes).Owned := by
  cases h
  case nothing => exact hrows
  case make dir name kind value id more counter next present directory free kind_eq leases =>
    refine hrows.put (puts_make leases) (fun b => mem_applyAll fun change hc => ?_) (.inl rfl)
      fun old hold heq => absurd heq ((hids.fresh counter next).2 old hold)
    obtain hc | hc := List.mem_append.mp hc
    · obtain rfl | rfl : change = _ ∨ change = _ := by simpa using hc
      all_goals simp [Change.key, Row.key]
    · obtain ⟨lease, rfl, -⟩ := leases change hc
      simp [Change.key, Row.key]
  case drop present below empty => exact hrows.removal present hclears
  case move n dir name allowed present below goal directory free =>
    refine hrows.put puts_move (fun b => mem_applyAll (by simp [Change.key, Row.key]))
      (.inr ⟨n, present, rfl, rfl⟩) fun old hold heq => ?_
    cases node_eq_of_mem hold present heq
    exact ⟨rfl, rfl⟩
  case append n value id stamp counter next present file =>
    have hfresh (a : Block) (ha : .block a ∈ rows.toList) : a.id ≠ ⟨id⟩ :=
      hids.fresh_block counter next ha
    refine hrows.append (b := .fresh ⟨id⟩ n.id stamp) present file rfl puts_append (fun a => ?_)
      hfresh
    refine ⟨fun ha => ?_, fun ha => ?_⟩
    · obtain ha | ha := mem_or_upsert ha
      · exact .inr ha
      · exact .inl (by simpa using ha)
    · obtain rfl | ha := ha
      · exact SortedBy.mem_of_find? (find?_applyAll_upsert [_, _, _] (by simp))
      · refine (mem_applyAll ?_).mpr ha
        simp [Change.key, Row.key, Block.fresh, (hfresh a ha).symm]

end Rows

namespace Namespace

open UnitOfWork

variable {σ : Timeline} {t n : Nat} {path name holder : String} {rows : Rows} {changes : List Change}
  {config : TransactionConfig} {r r' : Resolution} {counter : Option UInt64}

theorem makeNode_clears {kind : NodeKind} {more : List Change} {effect : Effect NodeId}
    (h : makeNode path kind r counter more = .ok effect)
    (hmore : ∀ change ∈ more, ∃ row, change = .upsert row) : rows.Clears effect.changes := by
  obtain ⟨dir, name, value, id, -, -, -, -, -, rfl⟩ := makeNode_eq_ok h
  refine .of_upserts fun change hc => ?_
  obtain hc | hc := List.mem_append.mp hc
  · obtain rfl | rfl : change = _ ∨ change = _ := by simpa using hc
    all_goals exact ⟨_, rfl⟩
  · exact hmore change hc

theorem AddBlock.plan_clears {lease : Option Lease} {block stamp : Option UInt64}
    {effect : Effect Block} (h : plan path holder r lease block stamp = .ok effect) :
    rows.Clears effect.changes := by
  obtain ⟨_, _, _, _, _, -, -, -, -, -, -, -, rfl⟩ := plan_eq_ok h
  exact .of_upserts (by simp)

theorem Rename.plan_clears {source destination : String} {start goal : Position}
    {effect : Effect Unit} (h : plan source destination start goal r r' = .ok effect) :
    rows.Clears effect.changes := by
  obtain rfl | ⟨_, _, _, -, -, -, -, -, rfl⟩ := plan_eq_ok h
  · exact .nil
  · exact .of_upserts (by simp)

-- The blocks that an attempt has listed are those that its commit finds.
theorem Delete.clears (hlock : config.rowLevelLock) {a : Bool}
    (o : Attempted σ config name (requests path) (task path) t) (hresult : o.result = .ok a)
    (hn : o.doneAt ≤ n) (hok : σ.Accepts n o.finish.tx changes) :
    (σ.rows n).Clears o.finish.changes := by
  have hu := o.works.le.trans hn
  obtain ⟨names, c, locked, done, hnames, hc, h, hcontents, hplanned⟩ := attempted hlock o
  have ⟨effect, hplan, _, hchanges⟩ := hplanned.effect hresult
  rw [hplanned.tx_eq hc] at hok
  rw [hchanges]
  obtain ⟨hplan, hkind⟩ := lockedPlan_eq_ok hplan
  obtain ⟨-, rfl⟩ | ⟨m, htarget, hroot, -, rfl⟩ := plan_eq_ok hplan
  · exact .nil
  have hm : .node m ∈ (σ.rows n).toList :=
    h.survey.present hok hu htarget (Want.ofPaths_leaf_strong (by simp) (by decide))
  by_cases hdir : m.isDirectory
  case pos =>
    simp only [hdir, if_true, List.map_nil, List.nil_append]
    refine ⟨fun {k b} hk hfile hremove _ _ => ?_, fun _ hremove => by simp at hremove⟩
    obtain rfl : k = m := Rows.node_eq_of_mem hk hm (by simpa using hremove)
    have hdir : k.kind = .directory := of_decide_eq_true hdir
    have hfile : k.kind = .file := of_decide_eq_true hfile
    cases hdir.symm.trans hfile
  case neg =>
    have hfile := ((hkind m htarget).resolve_left hroot).resolve_left hdir
    have ⟨found, hlisted⟩ := (hcontents m htarget).blocks hfile
    have hblock (b : Block) : b ∈ c.knownBlocks m.id ↔
        .block b ∈ (σ.rows n).toList ∧ b.owner = m.id := by
      rw [knownBlocks, hlisted.known, lookupList_of_listed hlisted (.inr rfl) (by decide) hok hu]
      exact Rows.mem_blocks_iff
    simp only [hdir]
    refine ⟨fun {k b} hk _ hremove hb howner => ?_, fun {b} hb hremove => ?_⟩
    · have hid : k.id = m.id := by simpa using hremove
      have hmem := (hblock b).mpr ⟨hb, howner.trans hid⟩
      exact List.mem_append_left _ (List.mem_map_of_mem hmem)
    · obtain ⟨b', hb', hid⟩ : ∃ b' ∈ c.knownBlocks m.id, b'.id = b.id := by simpa using hremove
      obtain ⟨hmem, howner⟩ := (hblock b').mp hb'
      rw [← Rows.block_eq_of_mem hmem hb hid, howner]
      exact List.mem_append_right _ (.head _)

end Namespace

namespace Session.NamespaceOperation

open Namespace Program

variable {σ : Timeline} {config : TransactionConfig} {op : NamespaceOperation} {tx : TxId}
  {changes : List Change} {t n : Nat}

theorem commit_clears (hlock : config.rowLevelLock)
    (h : (op.execute config).Reaches σ (.commit tx changes) n t) (hok : σ.Accepts n tx changes) :
    (σ.rows n).Clears changes := by
  cases op
  case makeDirectory =>
    obtain ⟨o, ⟨a, ha⟩, -, -, rfl, rfl⟩ :=
      UnitOfWork.execute_reaches (fun _ => makeDirectory_reads) (give_reaches h)
    obtain ⟨_, _, _, _, _, -, -, -, -, hplanned⟩ := MakeDirectory.attempted hlock o
    have ⟨effect, hplan, _, hchanges⟩ := hplanned.effect ha
    exact hchanges ▸ makeNode_clears hplan (by simp)
  case createFile =>
    obtain ⟨o, ⟨a, ha⟩, -, -, rfl, rfl⟩ :=
      UnitOfWork.execute_reaches (fun _ => createFile_reads) (give_reaches h)
    obtain ⟨_, _, _, _, _, _, -, -, -, -, -, hplanned⟩ := CreateFile.attempted hlock o
    have ⟨effect, hplan, _, hchanges⟩ := hplanned.effect ha
    exact hchanges ▸ makeNode_clears hplan (by simp)
  case delete =>
    obtain ⟨o, ⟨a, ha⟩, hn, -, rfl, rfl⟩ :=
      UnitOfWork.execute_reaches (fun _ => delete_reads) (give_reaches h)
    exact Delete.clears hlock o ha hn hok
  case rename =>
    obtain ⟨o, ⟨a, ha⟩, -, -, rfl, rfl⟩ :=
      UnitOfWork.execute_reaches (fun _ => rename_reads) (give_reaches h)
    obtain ⟨_, _, _, _, _, -, -, -, -, hplanned⟩ := Rename.attempted hlock o
    have ⟨effect, hplan, _, hchanges⟩ := hplanned.effect ha
    exact hchanges ▸ Rename.plan_clears hplan
  case addBlock =>
    obtain ⟨o, ⟨a, ha⟩, -, -, rfl, rfl⟩ :=
      UnitOfWork.execute_reaches (fun _ => addBlock_reads) (give_reaches h)
    obtain ⟨_, _, _, _, _, _, _, -, -, -, -, -, -, -, hplanned⟩ := AddBlock.attempted hlock o
    have ⟨effect, hplan, _, hchanges⟩ := hplanned.effect ha
    exact hchanges ▸ AddBlock.plan_clears hplan
  case fileInfo =>
    obtain ⟨o, ⟨a, ha⟩, -, -, rfl, rfl⟩ :=
      UnitOfWork.execute_reaches fileInfo_reads (give_reaches h)
    obtain ⟨_, _, _, _, -, -, -, hplanned⟩ := fileInfo_attempted hlock o
    have ⟨effect, hplan, _, hchanges⟩ := hplanned.effect ha
    cases hplan
    exact hchanges ▸ .nil
  case listDirectory =>
    obtain ⟨o, ⟨a, ha⟩, -, -, rfl, rfl⟩ :=
      UnitOfWork.execute_reaches (fun _ => listDirectory_reads) (give_reaches h)
    obtain ⟨_, _, _, _, -, -, -, -, hplanned⟩ := ListDirectory.attempted hlock o
    have ⟨effect, hplan, _, hchanges⟩ := hplanned.effect ha
    obtain ⟨_, -, -, rfl⟩ := ListDirectory.plan_eq_ok hplan
    exact hchanges ▸ .nil

end Session.NamespaceOperation

theorem Rows.Owned.new : Store.new.rows.Owned where
  distinct hn := eq_root_of_mem_new hn ▸ .nil
  listed hn hid := by
    rw [eq_root_of_mem_new hn] at hid
    cases hid
  owner hb := absurd (SortedBy.mem_of_mem_ofList hb) (by simp)

namespace Session.NamespaceOperation

variable {ι : Type} [DecidableEq ι] {world : World} {op : ι → NamespaceOperation}
  {config : ι → TransactionConfig} {schedule : List ι}

theorem crewIn_owned (hlock : ∀ i, (config i).rowLevelLock) (hstart : world.store.Tidy)
    (howned : world.store.rows.Owned) (n : Nat) :
    ((crewIn world op config).after schedule n).world.store.rows.Owned := by
  induction n
  case zero => exact howned
  case succ n ih =>
    have horderly : (crewIn world op config).Orderly := crewIn_orderly hstart.coherent
    obtain hrows | ⟨i, tx, changes, hok : Accepts _ n tx changes⟩ := horderly.rows_succ schedule n
    · exact hrows ▸ ih
    · have hreaches := Crew.program_reaches hok.1 (Nat.zero_le n)
      have hnumbered : ((crewIn world op config).after schedule n).world.store.rows.Numbered :=
        (crewIn_tidy hlock hstart n).numbered
      have hrows : ((crewIn world op config).after schedule (n + 1)).world.store.rows =
        ((crewIn world op config).after schedule n).world.store.rows.applyAll changes := hok.rows
      rw [hrows]
      exact (commit_edit (hlock i) hreaches hok).owned (commit_clears (hlock i) hreaches hok) hnumbered ih

-- However the calls of the members interleave, no block is lost, orphaned or shared. A new block
-- comes in one commit with its place in the list, and a file goes in one commit with all of its
-- blocks.
theorem blocks_run (hlock : ∀ i, (config i).rowLevelLock) :
    let rows := ((crew op config).run schedule).world.store.rows
    (∀ n : Node, .node n ∈ rows.toList → n.blocks.Nodup ∧ (n.isDirectory → n.blocks = []) ∧
      ∀ id ∈ n.blocks, ∃ b : Block, .block b ∈ rows.toList ∧ b.id = id ∧ b.owner = n.id) ∧
    ∀ b : Block, .block b ∈ rows.toList → ∃ n : Node, .node n ∈ rows.toList ∧ n.isFile ∧
      n.id = b.owner ∧ b.id ∈ n.blocks ∧
        ∀ m : Node, .node m ∈ rows.toList → b.id ∈ m.blocks → m = n := by
  intro rows
  have howned : rows.Owned := by
    have h : ((crew op config).after schedule schedule.length).world.store.rows.Owned :=
      crewIn_owned hlock .new .new _
    rwa [Crew.after_length] at h
  refine ⟨fun n hn => ?_, fun b hb => howned.listed_once hb⟩
  exact ⟨howned.distinct hn, howned.directory_empty hn, fun id hid => howned.listed hn hid⟩

-- A block is added while the file is being renamed; the rename starts over and takes it along.
theorem blocks_run_renamed :
    let op : Fin 3 → NamespaceOperation :=
      ![.createFile "/f" "c", .addBlock "/f" "c", .rename "/f" "/g"]
    let schedule := List.replicate 20 0 ++ List.replicate 3 1 ++ (List.replicate 40 [1, 2]).flatten
    let rows := ((crew op fun _ => {}).run schedule).world.store.rows
    TransactionConfig.rowLevelLock {} ∧
    .node ⟨⟨1⟩, .root, "g", .file, [⟨1⟩]⟩ ∈ rows.toList ∧
    (∀ n : Node, .node n ∈ rows.toList → n.blocks.Nodup ∧ (n.isDirectory → n.blocks = []) ∧
      ∀ id ∈ n.blocks, ∃ b : Block, .block b ∈ rows.toList ∧ b.id = id ∧ b.owner = n.id) ∧
    ∀ b : Block, .block b ∈ rows.toList → ∃ n : Node, .node n ∈ rows.toList ∧ n.isFile ∧
      n.id = b.owner ∧ b.id ∈ n.blocks ∧
        ∀ m : Node, .node m ∈ rows.toList → b.id ∈ m.blocks → m = n := by
  intro op schedule rows
  exact ⟨rfl, by decide +kernel, blocks_run fun _ => rfl⟩

end Session.NamespaceOperation

end NamespaceService
