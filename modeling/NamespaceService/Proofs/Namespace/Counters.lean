import NamespaceService.Proofs.Namespace.Modes

namespace NamespaceService

-- So many nodes and blocks have been numbered.
structure Rows.Counts (rows : Rows) (nodes blocks : Nat) : Prop where
  node : ∃ value, rows.counterAt .nodeIdCounter value ∧ value.toNat = nodes
  block : ∃ value, rows.counterAt .blockIdCounter value ∧ value.toNat = blocks
  stamp : ∃ value, rows.counterAt .generationStamp value ∧ value.toNat = 1000 + blocks

theorem Rows.Counts.new : Store.new.rows.Counts 0 0 where
  node := ⟨0, rfl, rfl⟩
  block := ⟨0, rfl, rfl⟩
  stamp := ⟨1000, rfl, rfl⟩

namespace Session.NamespaceOperation

def makesNode : NamespaceOperation → Bool
  | .makeDirectory _ | .createFile .. => true
  | _ => false

def addsBlock : NamespaceOperation → Bool
  | .addBlock .. => true
  | _ => false

def Uncounted (changes : List Change) : Prop :=
  ∀ change ∈ changes, ∀ register, change.key ≠ .register register

-- What an operation commits goes with what it gives: a number is taken from the rows that the commit
-- finds, and the counter is moved on to it.
inductive Counted (rows : Rows) (op : NamespaceOperation) : Value → List Change → Prop
  | node {value id : UInt64} {rest : List Change} (makes : op.makesNode) (adds : ¬op.addsBlock)
      (counter : rows.counterAt .nodeIdCounter value) (next : Counter.next? value = some id)
      (uncounted : Uncounted rest) :
    Counted rows op (.id ⟨id⟩) (.upsert (.register ⟨.nodeIdCounter, id⟩) :: rest)
  | block {value id old stamp : UInt64} {owner : NodeId} {rest : List Change} (makes : ¬op.makesNode)
      (adds : op.addsBlock) (counter : rows.counterAt .blockIdCounter value)
      (next : Counter.next? value = some id) (before : rows.counterAt .generationStamp old)
      (after : Counter.next? old = some stamp) (uncounted : Uncounted rest) :
    Counted rows op (.block (.fresh ⟨id⟩ owner stamp)) (.upsert (.register ⟨.blockIdCounter, id⟩) ::
      .upsert (.register ⟨.generationStamp, stamp⟩) :: rest)
  | other {value : Value} {changes : List Change} (makes : ¬op.makesNode) (adds : ¬op.addsBlock)
      (unnamed : ∀ id, value ≠ .id id) (uncounted : Uncounted changes) :
    Counted rows op value changes

section

variable {rows : Rows} {op : NamespaceOperation} {value : Value} {changes : List Change}
  {nodes blocks : Nat}

theorem Uncounted.nil : Uncounted [] :=
  fun _ h => absurd h List.not_mem_nil

theorem Uncounted.counterAt (h : Uncounted changes) {register : Register} {value : UInt64}
    (hvalue : rows.counterAt register value) : (rows.applyAll changes).counterAt register value :=
  Rows.counterAt_applyAll hvalue fun change hc => h change hc register

theorem counterAt_apply_of_ne {register other : Register} {value new : UInt64}
    (hvalue : rows.counterAt register value) (hne : other ≠ register) :
    (rows.apply (.upsert (.register ⟨other, new⟩))).counterAt register value := by
  have hkey : (Change.upsert (.register ⟨other, new⟩)).key ≠ .register register :=
    fun heq => hne (Key.register.inj heq)
  exact (Rows.find?_apply hkey).trans hvalue

theorem counterAt_apply_self {register : Register} {new : UInt64} :
    (rows.apply (.upsert (.register ⟨register, new⟩))).counterAt register new :=
  (SortedBy.find?_insert ..).trans (if_pos rfl)

theorem Counted.counts (h : Counted rows op value changes) (hcounts : rows.Counts nodes blocks) :
    (rows.applyAll changes).Counts (nodes + if op.makesNode then 1 else 0)
      (blocks + if op.addsBlock then 1 else 0) := by
  obtain ⟨⟨n, hn, hnodes⟩, ⟨b, hb, hblocks⟩, ⟨s, hs, hstamp⟩⟩ := hcounts
  cases h
  case node old id rest makes adds counter next uncounted =>
    cases hn.symm.trans counter
    have hid := Rows.toNat_of_next? next
    simp only [makes, adds, if_true]
    exact
      { node := ⟨id, uncounted.counterAt counterAt_apply_self, by omega⟩
        block := ⟨b, uncounted.counterAt (counterAt_apply_of_ne hb nofun), hblocks⟩
        stamp := ⟨s, uncounted.counterAt (counterAt_apply_of_ne hs nofun), hstamp⟩ }
  case block value id old stamp owner rest makes adds counter next before after uncounted =>
    cases hb.symm.trans counter
    cases hs.symm.trans before
    have hid := Rows.toNat_of_next? next
    have hafter := Rows.toNat_of_next? after
    simp only [makes, adds, if_true]
    exact
      { node := ⟨n, uncounted.counterAt (counterAt_apply_of_ne (counterAt_apply_of_ne hn nofun) nofun),
          hnodes⟩
        block := ⟨id, uncounted.counterAt (counterAt_apply_of_ne counterAt_apply_self nofun), by omega⟩
        stamp := ⟨stamp, uncounted.counterAt counterAt_apply_self, by omega⟩ }
  case other makes adds unnamed uncounted =>
    simp only [makes, adds]
    exact
      { node := ⟨n, uncounted.counterAt hn, hnodes⟩
        block := ⟨b, uncounted.counterAt hb, hblocks⟩
        stamp := ⟨s, uncounted.counterAt hs, hstamp⟩ }

-- Counters that have come so far give these numbers next.
theorem Counted.node_eq (h : Counted rows op value changes) (hcounts : rows.Counts nodes blocks)
    (hmakes : op.makesNode) : ∃ id : UInt64, value = .id ⟨id⟩ ∧ id.toNat = nodes + 1 := by
  obtain ⟨n, hn, hnodes⟩ := hcounts.node
  cases h
  case node old id rest makes adds counter next uncounted =>
    cases hn.symm.trans counter
    have hid := Rows.toNat_of_next? next
    exact ⟨id, rfl, by omega⟩
  case block makes adds _ _ _ _ _ => exact absurd hmakes makes
  case other makes adds unnamed uncounted => exact absurd hmakes makes

theorem Counted.makesNode {id : NodeId} (h : Counted rows op (.id id) changes) : op.makesNode := by
  cases h
  case node makes adds counter next uncounted => exact makes
  case other makes adds unnamed uncounted => exact absurd rfl (unnamed id)

theorem Counted.block_eq (h : Counted rows op value changes) (hcounts : rows.Counts nodes blocks)
    (hadds : op.addsBlock) : ∃ b : Block, value = .block b ∧ b.id.value.toNat = blocks + 1 ∧
      b.generationStamp.toNat = 1000 + (blocks + 1) := by
  obtain ⟨b, hb, hblocks⟩ := hcounts.block
  obtain ⟨s, hs, hstamp⟩ := hcounts.stamp
  cases h
  case node makes adds _ _ _ => exact absurd hadds adds
  case block value id old stamp owner rest makes adds counter next before after uncounted =>
    cases hb.symm.trans counter
    cases hs.symm.trans before
    have hid : id.toNat = blocks + 1 := hblocks ▸ Rows.toNat_of_next? next
    have hafter : stamp.toNat = 1000 + blocks + 1 := hstamp ▸ Rows.toNat_of_next? after
    exact ⟨_, rfl, hid, hafter⟩
  case other makes adds unnamed uncounted => exact absurd hadds adds

end

end Session.NamespaceOperation

namespace Namespace

open Session.NamespaceOperation

variable {rows : Rows} {path holder : String} {op : Session.NamespaceOperation} {r r' : Resolution}
  {children : NodeId → List Node} {blocks : NodeId → List Block}

theorem makeNode_counted {kind : NodeKind} {more : List Change} {effect : Effect NodeId}
    (hmakes : op.makesNode) (hadds : ¬op.addsBlock) (hmore : Uncounted more)
    (hplan : makeNode path kind r (counterIn .nodeIdCounter rows) more = .ok effect) :
    Counted rows op (.id effect.result) effect.changes := by
  obtain ⟨dir, name, value, id, -, -, -, hvalue, hnext, rfl⟩ := makeNode_eq_ok hplan
  refine .node hmakes hadds (valueOf_eq_some hvalue) hnext fun change hc => ?_
  obtain rfl | hc := List.mem_cons.mp hc
  · exact nofun
  · exact hmore change hc

theorem MakeDirectory.plan_counted {effect : Effect NodeId}
    (hplan : plan path r (counterIn .nodeIdCounter rows) = .ok effect) :
    Counted rows (.makeDirectory path) (.id effect.result) effect.changes :=
  makeNode_counted rfl nofun .nil hplan

theorem CreateFile.plan_counted {lease : Option Lease} {effect : Effect NodeId}
    (hplan : plan path holder r (counterIn .nodeIdCounter rows) lease = .ok effect) :
    Counted rows (.createFile path holder) (.id effect.result) effect.changes :=
  makeNode_counted rfl nofun (by simp [Uncounted, Change.key, Row.key]) hplan

theorem AddBlock.plan_counted {lease : Option Lease} {effect : Effect Block}
    (hplan : plan path holder r lease (counterIn .blockIdCounter rows)
      (counterIn .generationStamp rows) = .ok effect) :
    Counted rows (.addBlock path holder) (.block effect.result) effect.changes := by
  obtain ⟨file, value, id, old, next, -, -, -, hvalue, hid, hold, hnext, rfl⟩ := plan_eq_ok hplan
  refine .block nofun rfl (valueOf_eq_some hvalue) hid (valueOf_eq_some hold) hnext ?_
  simp [Uncounted, Change.key, Row.key]

theorem Delete.plan_uncounted {effect : Effect Bool}
    (hplan : plan path r children blocks = .ok effect) : Uncounted effect.changes := by
  obtain ⟨-, rfl⟩ | ⟨_, -, -, -, rfl⟩ := plan_eq_ok hplan
  · exact .nil
  · intro change hc
    obtain hc | hc := List.mem_append.mp hc
    · obtain ⟨block, -, rfl⟩ := List.mem_map.mp hc
      exact nofun
    · cases List.mem_singleton.mp hc
      exact nofun

theorem Rename.plan_uncounted {source destination : String} {start goal : Position}
    {effect : Effect Unit} (hplan : plan source destination start goal r r' = .ok effect) :
    Uncounted effect.changes := by
  obtain rfl | ⟨_, _, _, -, -, -, -, -, rfl⟩ := plan_eq_ok hplan
  · exact .nil
  · simp [Uncounted, Change.key, Row.key]

theorem ListDirectory.plan_uncounted {effect : Effect (List String)}
    (hplan : plan path r children = .ok effect) : Uncounted effect.changes := by
  obtain ⟨_, -, -, rfl⟩ := plan_eq_ok hplan
  exact .nil

end Namespace

namespace Session.NamespaceOperation

open Namespace

theorem eq_ok_of_map {α : Type} {value : α → Value} {made : Except Stop (Effect α)}
    {effect : Effect Value} (h : made.map (effectOf value) = .ok effect) :
    ∃ a changes, made = .ok ⟨a, changes⟩ ∧ effect = ⟨value a, changes⟩ := by
  cases made
  case error => cases h
  case ok made => exact ⟨made.result, made.changes, rfl, (Except.ok.inj h).symm⟩

theorem outcome_counted {rows : Rows} {op : NamespaceOperation} {effect : Effect Value}
    (h : op.outcome false rows = .ok effect) : Counted rows op effect.result effect.changes := by
  cases op
  all_goals
    simp only [outcome, Bool.false_eq_true, if_false] at h
    obtain ⟨a, changes, hmade, rfl⟩ := eq_ok_of_map h
  case makeDirectory =>
    obtain ⟨r, -, hmade⟩ := bind_eq_ok hmade
    exact MakeDirectory.plan_counted hmade
  case createFile =>
    obtain ⟨r, -, hmade⟩ := bind_eq_ok hmade
    exact CreateFile.plan_counted hmade
  case delete =>
    obtain ⟨r, -, hmade⟩ := bind_eq_ok hmade
    exact .other nofun nofun nofun (Delete.plan_uncounted hmade)
  case rename =>
    obtain ⟨start, -, hmade⟩ := bind_eq_ok hmade
    obtain ⟨goal, -, hmade⟩ := bind_eq_ok hmade
    exact .other nofun nofun nofun (Rename.plan_uncounted hmade)
  case addBlock =>
    obtain ⟨r, -, hmade⟩ := bind_eq_ok hmade
    exact AddBlock.plan_counted hmade
  case fileInfo =>
    obtain ⟨r, -, hmade⟩ := bind_eq_ok hmade
    cases hmade
    exact .other nofun nofun nofun .nil
  case listDirectory =>
    obtain ⟨r, -, hmade⟩ := bind_eq_ok hmade
    exact .other nofun nofun nofun (ListDirectory.plan_uncounted hmade)

end Session.NamespaceOperation

end NamespaceService
