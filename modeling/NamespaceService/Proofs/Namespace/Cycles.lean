import NamespaceService.Proofs.Namespace.Hierarchy

namespace NamespaceService

namespace Rows

variable {rows rows' : Rows} {changes : List Change} {a b c : NodeId} {m n new : Node}

-- From one node the parents lead to another one, or it is the same.
inductive Below (rows : Rows) : NodeId → NodeId → Prop
  | refl (id : NodeId) : Below rows id id
  | up {n : Node} {id : NodeId} (present : .node n ∈ rows.toList) (above : Below rows n.parent id) :
    Below rows n.id id

def Rooted (rows : Rows) : Prop :=
  ∀ n : Node, .node n ∈ rows.toList → rows.Below n.id .root

-- A node goes to a parent that was below it.
def Sinks (rows rows' : Rows) : Prop :=
  ∃ n n' : Node, .node n ∈ rows.toList ∧ .node n' ∈ rows'.toList ∧ n'.id = n.id ∧
    n'.parent ≠ n.parent ∧ rows.Below n'.parent n.id

theorem Below.trans (h : rows.Below a b) (h' : rows.Below b c) : rows.Below a c := by
  induction h
  case refl => exact h'
  case up n id present above ih => exact .up present (ih h')

theorem Below.eq_or_up (h : rows.Below a b) :
    a = b ∨ ∃ n : Node, .node n ∈ rows.toList ∧ n.id = a ∧ rows.Below n.parent b := by
  cases h
  case refl => exact .inl rfl
  case up n present above => exact .inr ⟨n, present, rfl, above⟩

-- Above the root there is nothing.
theorem Hierarchy.eq_of_above_root (h : rows.Hierarchy) (hb : rows.Below .root b) : b = .root := by
  generalize ha : NodeId.root = a at hb
  induction hb
  case refl => rfl
  case up n id present above ih =>
    cases h.eq_root present (isRoot_iff.mpr ha.symm)
    exact (ih rfl).trans rfl

-- What is above a node is there.
theorem Hierarchy.present (h : rows.Hierarchy) (hb : rows.Below a b)
    (ha : ∃ n : Node, .node n ∈ rows.toList ∧ n.id = a) :
    ∃ n : Node, .node n ∈ rows.toList ∧ n.id = b := by
  induction hb
  case refl => exact ha
  case up n id present above ih =>
    refine ih ?_
    by_cases hroot : n.isRoot
    case pos =>
      cases h.eq_root present hroot
      exact ⟨.root, h.root, rfl⟩
    case neg =>
      have ⟨dir, hdir, hid, _⟩ := h.parent present hroot
      exact ⟨dir, hdir, hid⟩

-- A node that reaches the root is not above its own parent.
theorem Hierarchy.not_below (h : rows.Hierarchy) (hroot : rows.Below a .root)
    (hn : .node n ∈ rows.toList) (ha : n.id = a) (hbelow : ¬n.isRoot) :
    ¬rows.Below n.parent n.id := by
  generalize hgoal : NodeId.root = goal at hroot
  induction hroot generalizing n
  case refl => exact absurd (isRoot_iff.mpr (ha.trans hgoal.symm)) hbelow
  case up m id present above ih =>
    cases node_eq_of_mem hn present ha
    intro hcycle
    obtain hparent | ⟨p, hp, hpid, habove⟩ := hcycle.eq_or_up
    · exact ih hn hparent.symm hbelow hgoal hcycle
    · by_cases hroot : p.isRoot
      case pos =>
        cases h.eq_root hp hroot
        exact hbelow (isRoot_iff.mpr (h.eq_of_above_root habove))
      case neg =>
        exact ih hp hpid hroot hgoal (habove.trans (hpid ▸ .up hn (.refl _)))

-- A path that the write of a node leaves out is still there.
theorem Puts.below (hputs : Puts rows rows' new) (h : rows.Below a b) :
    rows'.Below a b ∨ rows.Below a new.id := by
  induction h
  case refl id => exact .inl (.refl id)
  case up n id present above ih =>
    by_cases hid : n.id = new.id
    case pos => exact .inr (hid ▸ .refl _)
    case neg =>
      exact ih.imp (.up ((hputs n).mpr (.inr ⟨present, hid⟩))) (.up present)

theorem Puts.below_self (hputs : Puts rows rows' new) (h : rows.Below a new.id) :
    rows'.Below a new.id := by
  generalize hb : new.id = b at h
  induction h
  case refl id => exact .refl id
  case up n id present above ih =>
    by_cases hid : n.id = new.id
    case pos => exact (hid.trans hb) ▸ .refl _
    case neg => exact .up ((hputs n).mpr (.inr ⟨present, hid⟩)) (ih hb)

theorem Puts.rooted (hputs : Puts rows rows' new) (hrooted : rows.Rooted)
    (hdir : ∃ dir : Node, .node dir ∈ rows.toList ∧ dir.id = new.parent)
    (hnew : ¬rows.Below new.parent new.id) : rows'.Rooted := by
  have hroot : rows'.Below new.id .root := by
    have ⟨dir, hdir, hid⟩ := hdir
    have := (hputs.below (hrooted dir hdir)).resolve_right (hid ▸ hnew)
    exact .up ((hputs new).mpr (.inl rfl)) (hid ▸ this)
  intro m hm
  obtain rfl | ⟨hm, -⟩ := (hputs m).mp hm
  · exact hroot
  · exact (hputs.below (hrooted m hm)).elim id fun h => (hputs.below_self h).trans hroot

-- Nothing is below a node that can be removed.
theorem Drops.rooted (hdrops : Drops rows rows' n.id) (hrooted : rows.Rooted)
    (hrows : rows.Hierarchy) (hn : .node n ∈ rows.toList) (hbelow : ¬n.isRoot)
    (hempty : n.isDirectory → rows.lookupList (.children n.id) = []) : rows'.Rooted := by
  have hpath {a : NodeId} (h : rows.Below a .root) (ha : a ≠ n.id) : rows'.Below a .root := by
    generalize hgoal : NodeId.root = goal at h
    induction h
    case refl id => exact .refl id
    case up m id present above ih =>
      refine .up ((hdrops m).mpr ⟨present, ha⟩) (ih (fun hparent => ?_) hgoal)
      by_cases hroot : m.isRoot
      case pos =>
        cases hrows.eq_root present hroot
        exact hbelow (isRoot_iff.mpr hparent.symm)
      case neg =>
        have ⟨dir, hdir, hid, hkind⟩ := hrows.parent present hroot
        cases node_eq_of_mem hdir hn (hid.trans hparent)
        have := mem_children_iff.mpr ⟨present, hroot, hparent⟩
        simp [hempty hkind] at this
  intro m hm
  have ⟨hm, hid⟩ := (hdrops m).mp hm
  exact hpath (hrooted m hm) hid

theorem Hierarchy.not_below_parent (h : rows.Hierarchy) (hrooted : rows.Rooted)
    (hn : .node n ∈ rows.toList) (hbelow : ¬n.isRoot) : ¬rows.Below n.parent n.id :=
  h.not_below (hrooted n hn) hn rfl hbelow

theorem Edit.rooted {moves : Prop} (h : rows.Edit moves changes) (hrows : rows.Hierarchy) (hids : rows.Numbered)
    (hrooted : rows.Rooted) (hsinks : ¬rows.Sinks (rows.applyAll changes)) :
    (rows.applyAll changes).Rooted := by
  cases h
  case nothing => exact hrooted
  case make dir name kind value id more counter next present directory free kind_eq leases =>
    refine (puts_make leases).rooted hrooted ⟨dir, present, rfl⟩ fun hcycle => ?_
    obtain ⟨m, hm, hid⟩ := hrows.present hcycle ⟨dir, present, rfl⟩
    exact (hids.fresh counter next).2 m hm hid
  case drop n blocks present below empty =>
    exact (drops_drop blocks).rooted hrooted hrows present below empty
  case move n dir name allowed present below goal directory free =>
    have hputs : Puts rows (rows.applyAll _) { n with parent := dir.id, name } := puts_move
    refine hputs.rooted hrooted ⟨dir, goal, rfl⟩ fun hcycle => ?_
    by_cases hsame : dir.id = n.parent
    case pos => exact hrows.not_below_parent hrooted present below (hsame ▸ hcycle)
    case neg => exact hsinks ⟨n, _, present, (hputs _).mpr (.inl rfl), rfl, hsame, hcycle⟩
  case append n value id stamp counter next present file =>
    have hbelow := hrows.file_below present file
    obtain ⟨dir, hdir, hid, _⟩ := hrows.parent (n := n) present hbelow
    exact puts_append.rooted hrooted ⟨dir, hdir, hid⟩
      (hrows.not_below_parent (n := n) hrooted present hbelow)

-- The write that gives a node another parent is a move.
theorem Edit.puts_of_moved {moves : Prop} (h : rows.Edit moves changes) (hids : rows.Numbered)
    (hn : .node n ∈ rows.toList) (hm : .node m ∈ (rows.applyAll changes).toList) (hid : m.id = n.id)
    (hparent : m.parent ≠ n.parent) : Puts rows (rows.applyAll changes) m ∧ ¬m.isRoot := by
  have hold : .node m ∉ rows.toList := fun hm => hparent (node_eq_of_mem hm hn hid ▸ rfl)
  have hmem := (mem_or_upsert hm).resolve_left hold
  cases h
  case nothing => cases hmem
  case make dir name kind value id more counter next present directory free kind_eq leases =>
    cases node_of_make leases hmem
    exact absurd hid.symm ((hids.fresh counter next).2 n hn)
  case drop => simp at hmem
  case move old dir name allowed present below goal directory free =>
    have hmem : m = { old with parent := dir.id, name } := by simpa using hmem
    subst hmem
    exact ⟨puts_move, below⟩
  case append old value id stamp counter next present file =>
    have hmem : m = { old with blocks := old.blocks ++ [⟨id⟩] } := by simpa using hmem
    subst hmem
    cases node_eq_of_mem hn present hid.symm
    exact absurd rfl hparent

theorem Edit.not_rooted {moves : Prop} (h : rows.Edit moves changes) (hrows : rows.Hierarchy)
    (hids : rows.Numbered)
    (hsinks : rows.Sinks (rows.applyAll changes)) : ¬(rows.applyAll changes).Rooted := by
  obtain ⟨n, m, hn, hm, hid, hparent, hcycle⟩ := hsinks
  have ⟨hputs, hbelow⟩ := h.puts_of_moved hids hn hm hid hparent
  intro hrooted
  exact (h.hierarchy hrows hids).not_below_parent hrooted hm hbelow (hputs.below_self (hid ▸ hcycle))

end Rows

namespace Session.NamespaceOperation

open Crew

variable {ι : Type} [DecidableEq ι] {op : ι → NamespaceOperation} {config : ι → TransactionConfig}
  {schedule : List ι} {n : Nat}

theorem rooted_new : Store.new.rows.Rooted :=
  fun _ hn => eq_root_of_mem_new hn ▸ .refl _

-- All nodes reach the root at all times exactly if no step moves a node below itself. The commit of
-- a rename does not rest on what is above its destination, so two renames that cross can make such
-- a step.
theorem rooted_run_iff (hlock : ∀ i, (config i).rowLevelLock) :
    (∀ n, ((crew op config).after schedule n).world.store.rows.Rooted) ↔
      ∀ n, ¬((crew op config).after schedule n).world.store.rows.Sinks
        ((crew op config).after schedule (n + 1)).world.store.rows := by
  have htidy : ∀ m, ((crew op config).after schedule m).world.store.Tidy := crewIn_tidy hlock .new
  have hstep (n : Nat) := crewIn_edit { store := .new } op schedule n hlock .new
  constructor
  case mp =>
    intro hrooted n hsinks
    have ⟨changes, hedit, hrows⟩ := hstep n
    refine hedit.not_rooted (htidy n).hierarchy (htidy n).numbered ?_ (hrows ▸ hrooted (n + 1))
    exact hrows ▸ hsinks
  case mpr =>
    intro hsinks n
    induction n
    case zero => exact rooted_new
    case succ n ih =>
      have ⟨changes, hedit, hrows⟩ := hstep n
      have hrooted := hedit.rooted (htidy n).hierarchy (htidy n).numbered ih (hrows ▸ hsinks n)
      exact hrows ▸ hrooted

-- Two directories, each of which is to go below the other.
def crossing : Fin 8 → NamespaceOperation
  | 0 => .makeDirectory "/a"
  | 1 => .makeDirectory "/b"
  | 2 => .makeDirectory "/a/x"
  | 3 => .makeDirectory "/a/x/w"
  | 4 => .makeDirectory "/b/z"
  | 5 => .makeDirectory "/b/z/y"
  | 6 => .rename "/a/x" "/b/z/y/x"
  | 7 => .rename "/b/z" "/a/x/w/z"

-- The second rename runs while the first one is about to commit.
def crossingSchedule : List (Fin 8) :=
  [(0, 15), (1, 15), (2, 17), (3, 19), (4, 17), (5, 19), (6, 21), (7, 25), (6, 5)].flatMap
    fun (i, turns) => List.replicate turns i

def crossed : Rows :=
  ((crew crossing fun _ => {}).run crossingSchedule).world.store.rows

def parents (rows : Rows) : List (NodeId × NodeId) :=
  rows.toList.filterMap fun
    | .node n => some (n.id, n.parent)
    | _ => none

theorem mem_parents_iff {rows : Rows} {id parent : NodeId} :
    (id, parent) ∈ parents rows ↔ ∃ n : Node, .node n ∈ rows.toList ∧ n.id = id ∧ n.parent = parent := by
  simp only [parents, List.mem_filterMap]
  constructor
  case mp =>
    rintro ⟨row, hrow, heq⟩
    cases row
    case node n =>
      cases heq
      exact ⟨n, hrow, rfl, rfl⟩
    all_goals cases heq
  case mpr =>
    rintro ⟨n, hn, rfl, rfl⟩
    exact ⟨.node n, hn, rfl⟩

theorem crossed_parents : parents crossed =
    [(⟨0⟩, ⟨0⟩), (⟨1⟩, ⟨0⟩), (⟨2⟩, ⟨0⟩), (⟨3⟩, ⟨6⟩), (⟨4⟩, ⟨3⟩), (⟨5⟩, ⟨4⟩), (⟨6⟩, ⟨5⟩)] := by
  decide +kernel

-- From the cycle no parent leads out.
theorem crossed_cycle {a b : NodeId} (h : crossed.Below a b)
    (ha : a ∈ [⟨3⟩, ⟨4⟩, ⟨5⟩, ⟨6⟩]) : b ∈ [⟨3⟩, ⟨4⟩, ⟨5⟩, ⟨6⟩] := by
  induction h
  case refl => exact ha
  case up n id present above ih =>
    have hmem := mem_parents_iff.mpr ⟨n, present, rfl, rfl⟩
    rw [crossed_parents] at hmem
    refine ih ?_
    generalize n.id = id at ha hmem
    generalize n.parent = parent at hmem
    simp only [List.mem_cons, Prod.mk.injEq, List.not_mem_nil, or_false] at ha hmem ⊢
    obtain rfl | rfl | rfl | rfl := ha
    all_goals simp at hmem
    all_goals simp [hmem]

theorem not_rooted_crossed : ¬crossed.Rooted := by
  intro hrooted
  have hmem : ((⟨3⟩, ⟨6⟩) : NodeId × NodeId) ∈ parents crossed := by simp [crossed_parents]
  have ⟨n, hn, hid, _⟩ := mem_parents_iff.mp hmem
  have := crossed_cycle (hrooted n hn) (by simp [hid])
  simp [NodeId.root] at this

theorem after_crossing : ((crew crossing fun _ => {}).after crossingSchedule
    crossingSchedule.length).world.store.rows = crossed := by
  rw [after_length, crossed]

theorem crossing_not_rooted :
    ¬∀ n, ((crew crossing fun _ => {}).after crossingSchedule n).world.store.rows.Rooted :=
  fun h => not_rooted_crossed (after_crossing ▸ h crossingSchedule.length)

theorem crossing_sinks : TransactionConfig.rowLevelLock {} ∧
    ∃ n, ((crew crossing fun _ => {}).after crossingSchedule n).world.store.rows.Sinks
      ((crew crossing fun _ => {}).after crossingSchedule (n + 1)).world.store.rows := by
  refine ⟨rfl, ?_⟩
  by_contra! hsinks
  have hrooted := (rooted_run_iff fun _ => rfl).mpr hsinks crossingSchedule.length
  exact not_rooted_crossed (after_crossing ▸ hrooted)

end Session.NamespaceOperation

end NamespaceService
