import NamespaceService.Proofs.Namespace.Cycles
import NamespaceService.Proofs.Namespace.OnDemand
import NamespaceService.Proofs.Namespace.Undisturbed

namespace NamespaceService

open Namespace UnitOfWork

namespace Store

variable {s : Store}

theorem Calm.insert (h : s.Calm) (row : Row) : (s.insert row).Calm where
  coherent :=
    { quiet := h.coherent.quiet
      observed_le := fun hread => by
        refine (h.coherent.observed_le hread).trans ?_
        simp only [Store.insert, put, bump]
        split <;> omega }
  fresh := h.fresh

end Store

namespace Session.NamespaceOperation

variable {op : NamespaceOperation} {config on off : TransactionConfig} {rows : Rows} {s : Store}
  {w w' : World}

def effectOf {α : Type} (value : α → Value) (effect : Effect α) : Effect Value :=
  ⟨value effect.result, effect.changes⟩

def outcome (locked : Bool) (rows : Rows) : NamespaceOperation → Except Stop (Effect Value)
  | .makeDirectory path =>
    (if locked then MakeDirectory.lockedOutcome path rows
      else MakeDirectory.outcome path rows).map (effectOf .id)
  | .createFile path holder =>
    (if locked then CreateFile.lockedOutcome path holder rows
      else CreateFile.outcome path holder rows).map (effectOf .id)
  | .delete path =>
    (if locked then Delete.lockedOutcome path rows
      else Delete.outcome path rows).map (effectOf .flag)
  | .rename source destination =>
    (Rename.outcome source destination rows).map (effectOf fun _ => .nothing)
  | .addBlock path holder => (AddBlock.outcome path holder rows).map (effectOf .block)
  | .fileInfo path => (fileInfoOutcome path rows).map (effectOf .node)
  | .listDirectory path => (ListDirectory.outcome path rows).map (effectOf .names)

-- With nobody beside it, the operation gives the result of the outcome, and leaves the rows with the
-- changes applied.
def Comes (config : TransactionConfig) (op : NamespaceOperation) (s : Store)
    (outcome : Except Stop (Effect Value)) : Prop :=
  ∃ s', (op.execute config).RunsAlone s (outcome.map Effect.result) s' ∧ s'.Calm ∧
    s'.rows = rowsAfter s.rows outcome

theorem give_comes {α : Type} {unit : UnitOfWork Unit α} {value : α → Value}
    {outcome : Except Stop (Effect α)} (h : UnitOfWork.Comes config unit s outcome) :
    ∃ s', (give config unit value).RunsAlone s
        ((outcome.map (effectOf value)).map Effect.result) s' ∧ s'.Calm ∧
      s'.rows = rowsAfter s.rows (outcome.map (effectOf value)) := by
  obtain ⟨s', hrun, hcalm, hrows⟩ := h
  refine ⟨s', hrun.bind ?_, hcalm, ?_⟩
  · cases outcome <;> exact .done
  · rw [hrows]
    cases outcome <;> rfl

theorem comes (hs : s.Calm) (hrows : s.rows.Hierarchy) :
    Comes config op s (op.outcome config.rowLevelLock s.rows) := by
  cases hlock : config.rowLevelLock
  case true =>
    cases op
    case makeDirectory => exact give_comes (MakeDirectory.comes_locked hs hrows hlock)
    case createFile => exact give_comes (CreateFile.comes_locked hs hrows hlock)
    case delete => exact give_comes (Delete.comes_locked hs hrows hlock)
    case rename => exact give_comes (Rename.comes_locked hs hrows hlock)
    case addBlock => exact give_comes (AddBlock.comes_locked hs hrows hlock)
    case fileInfo => exact give_comes (fileInfo_comes_locked hs hrows hlock)
    case listDirectory => exact give_comes (ListDirectory.comes_locked hs hrows hlock)
  case false =>
    have hfree : ¬config.rowLevelLock := by simp [hlock]
    cases op
    case makeDirectory => exact give_comes (MakeDirectory.comes_free hs hrows hfree)
    case createFile => exact give_comes (CreateFile.comes_free hs hrows hfree)
    case delete => exact give_comes (Delete.comes_free hs hrows hfree)
    case rename => exact give_comes (Rename.comes_free hs hrows hfree)
    case addBlock => exact give_comes (AddBlock.comes_free hs hrows hfree)
    case fileInfo => exact give_comes (fileInfo_comes_free hs hrows hfree)
    case listDirectory => exact give_comes (ListDirectory.comes_free hs hrows hfree)

-- The operation ends, whatever else there is in the world.
theorem run_eq (op : NamespaceOperation) (config : TransactionConfig) (w : World)
    {outcome : Except Stop (Effect Value)} (hs : w.store.Calm) (hrows : w.store.rows.Hierarchy)
    (houtcome : op.outcome config.rowLevelLock w.store.rows = outcome) : ∃ w',
    (op.execute config).run w = some (outcome.map Effect.result, w') ∧ w'.store.Calm ∧
      w'.store.rows = rowsAfter w.store.rows outcome := by
  obtain ⟨s', hrun, hcalm, hrows'⟩ : Comes config op w.store _ := comes hs hrows
  obtain ⟨w', hw', rfl⟩ := hrun.run
  rw [houtcome] at hw' hrows'
  exact ⟨w', hw', hcalm, hrows'⟩

def executeAll : List (NamespaceOperation × TransactionConfig) → Program (List (Except Stop Value))
  | [] => return []
  | (op, config) :: rest => do
    let result ← op.execute config
    return result :: (← executeAll rest)

theorem executeAll_cons {config : TransactionConfig} {w w' : World} {result : Except Stop Value}
    (hrun : (op.execute config).run w = some (result, w'))
    (rest : List (NamespaceOperation × TransactionConfig)) :
    (executeAll ((op, config) :: rest)).run w =
      ((executeAll rest).run w').map fun (results, w'') => (result :: results, w'') := by
  rw [executeAll, Program.run_bind, hrun, Option.bind_some]
  refine (Program.run_bind ..).trans ?_
  cases (executeAll rest).run w' <;> rfl

-- A node is to be made that would take the id of one on its path.
def Crossing (rows : Rows) (path : String) (made : Except Stop (Effect NodeId)) : Prop :=
  ∃ names effect, Path.components path = .ok names ∧ made = .ok effect ∧
    rows.crosses names effect.result

-- The same for any operation, or what is to be deleted is neither a directory nor a file.
def Diverges (rows : Rows) : NamespaceOperation → Prop
  | .makeDirectory path => Crossing rows path (MakeDirectory.outcome path rows)
  | .createFile path holder => Crossing rows path (CreateFile.outcome path holder rows)
  | .delete path => ∃ names n, Path.components path = .ok names ∧ rows.place names = some n ∧
    ¬n.isRoot ∧ ¬n.isDirectory ∧ ¬n.isFile
  | _ => False

section

variable {path : String} {made : Except Stop (Effect NodeId)}

theorem guarded_eq (h : ¬Crossing rows path made)
    (hmalformed : ∀ stop, namesOf path = .error stop → made = .error stop) :
    (do guardId rows (← namesOf path) made) = made := by
  cases hnames : Path.components path
  case error e =>
    rw [namesOf_malformed hnames, hmalformed _ (namesOf_malformed hnames)]
    rfl
  case ok names =>
    rw [namesOf_eq hnames]
    cases made
    case error => rfl
    case ok effect => exact if_neg fun hcrosses => h ⟨names, effect, hnames, rfl, hcrosses⟩

theorem guarded_crossing (h : Crossing rows path made) : ∃ effect, made = .ok effect ∧
    (do guardId rows (← namesOf path) made) = .error (.failed (.store
      (.lockUpgrade (.node effect.result) LockKind.readCommitted.text))) := by
  obtain ⟨names, effect, hnames, rfl, hcrosses⟩ := h
  refine ⟨effect, rfl, ?_⟩
  rw [namesOf_eq hnames]
  exact if_pos hcrosses

end

theorem outcome_locked (h : ¬op.Diverges rows) : op.outcome true rows = op.outcome false rows := by
  cases op
  case makeDirectory path =>
    refine congrArg (Except.map (effectOf .id)) (guarded_eq h fun stop hnames => ?_)
    rw [MakeDirectory.outcome, resolveIn, hnames]
    rfl
  case createFile path holder =>
    refine congrArg (Except.map (effectOf .id)) (guarded_eq h fun stop hnames => ?_)
    rw [CreateFile.outcome, resolveIn, hnames]
    rfl
  case delete path =>
    refine congrArg (Except.map (effectOf .flag))
      (?_ : Delete.lockedOutcome path rows = Delete.outcome path rows)
    cases hnames : Path.components path
    case error e =>
      rw [Delete.lockedOutcome, Delete.outcome, resolveIn_malformed hnames]
      rfl
    case ok names =>
      rw [Delete.lockedOutcome_eq hnames, Delete.outcome_eq hnames]
      refine Delete.lockedPlan_eq fun n hn => ?_
      by_contra! hkind
      exact h ⟨names, n, hnames, hn, hkind⟩
  all_goals rfl

-- The id of a new node is not in use.
theorem not_crossing {path : String} {kind : NodeKind} {more : List Change}
    {made : Except Stop (Effect NodeId)} (hids : rows.Numbered)
    (hmade : made = (resolveIn path rows >>= fun r =>
      makeNode path kind r (counterIn .nodeIdCounter rows) more)) : ¬Crossing rows path made := by
  rintro ⟨names, effect, hnames, hok, hcrosses⟩
  rw [hmade, resolveIn_eq hnames] at hok
  obtain ⟨_, _, value, id, -, -, -, hvalue, hnext, rfl⟩ := makeNode_eq_ok hok
  obtain ⟨q, n, -, -, -, hn, hid⟩ := Rows.crosses_iff.mp hcrosses
  exact (hids.fresh (valueOf_eq_some hvalue) hnext).2 n (Rows.mem_of_place hn) hid

theorem not_diverges (hids : rows.Numbered) : ¬op.Diverges rows := by
  cases op
  case makeDirectory path => exact not_crossing hids rfl
  case createFile path holder => exact not_crossing hids rfl
  case delete path =>
    rintro ⟨names, n, -, hn, -, hdir, hfile⟩
    exact (hids.kind (Rows.mem_of_place hn)).elim hdir hfile
  all_goals exact id

theorem outcome_eq_free (hids : rows.Numbered) (locked : Bool) :
    op.outcome locked rows = op.outcome false rows := by
  cases locked
  case false => rfl
  case true => exact outcome_locked (not_diverges hids)

theorem outcome_diverges (h : op.Diverges rows) :
    (∃ fault, op.outcome true rows = .error (.failed (.store fault)) ∧ fault.isContractViolation) ∧
      ∃ effect, op.outcome false rows = .ok effect := by
  cases op
  case makeDirectory path =>
    obtain ⟨effect, hfree, hlocked⟩ := guarded_crossing h
    exact ⟨⟨_, congrArg (Except.map (effectOf .id)) hlocked, rfl⟩,
      _, congrArg (Except.map (effectOf .id)) hfree⟩
  case createFile path holder =>
    obtain ⟨effect, hfree, hlocked⟩ := guarded_crossing h
    exact ⟨⟨_, congrArg (Except.map (effectOf .id)) hlocked, rfl⟩,
      _, congrArg (Except.map (effectOf .id)) hfree⟩
  case delete path =>
    obtain ⟨names, n, hnames, hn, hroot, hdir, hfile⟩ := h
    have htarget : (Resolution.along rows.place names).target = some n := hn
    have hlocked : Delete.lockedOutcome path rows =
        .error (.failed (.store (.storagePrevented (Finder.blocksOf n.id).text))) := by
      simp [Delete.lockedOutcome_eq hnames, Delete.lockedPlan, htarget, hroot, hdir, hfile]
    obtain ⟨effect, hfree⟩ : ∃ effect, Delete.outcome path rows = .ok effect := by
      simp [Delete.outcome_eq hnames, Delete.plan, htarget, hroot, hdir]
    exact ⟨⟨_, congrArg (Except.map (effectOf .flag)) hlocked, rfl⟩,
      _, congrArg (Except.map (effectOf .flag)) hfree⟩
  all_goals exact h.elim

-- From the same rows, both modes give the same result and leave the same rows, unless the operation
-- diverges: then only the mode without row locks carries it out.
theorem modes_agree (hs : w.store.Calm) (hs' : w'.store.Calm) (hrows : w.store.rows.Hierarchy)
    (hsame : w'.store.rows = w.store.rows) (hon : on.rowLevelLock) (hoff : ¬off.rowLevelLock) :
    ∃ x v y v', (op.execute on).run w = some (x, v) ∧ (op.execute off).run w' = some (y, v') ∧
      (¬op.Diverges w.store.rows → x = y ∧ v.store.rows = v'.store.rows) ∧
      (op.Diverges w.store.rows →
        (∃ fault, x = .error (.failed (.store fault)) ∧ fault.isContractViolation) ∧
          v.store.rows = w.store.rows ∧ ∃ value, y = .ok value) := by
  have hlocked := congrArg (op.outcome · w.store.rows) hon
  have hfree : op.outcome off.rowLevelLock w'.store.rows = op.outcome false w.store.rows := by
    rw [hsame, show off.rowLevelLock = false by simpa using hoff]
  obtain ⟨v, hrun, _, hv⟩ := run_eq op on w hs hrows hlocked
  obtain ⟨v', hrun', _, hv'⟩ := run_eq op off w' hs' (hsame ▸ hrows) hfree
  refine ⟨_, v, _, v', hrun, hrun', fun hagree => ?_, fun hdiverges => ?_⟩
  · rw [hv, hv', outcome_locked hagree, hsame]
    exact ⟨rfl, rfl⟩
  · obtain ⟨⟨fault, hfails, hviolation⟩, effect, hworks⟩ := outcome_diverges hdiverges
    rw [hv, hfails, hworks]
    exact ⟨⟨fault, rfl, hviolation⟩, rfl, _, rfl⟩

end Session.NamespaceOperation

-- A tree of named nodes with the root at its top, blocks of files, and the counters.
structure Rows.WellFormed (rows : Rows) : Prop extends rows.Hierarchy where
  rooted : rows.Rooted
  name {n : Node} : .node n ∈ rows.toList → ¬n.isRoot → Path.components ("/" ++ n.name) = .ok [n.name]
  owner {b : Block} : .block b ∈ rows.toList →
    ∃ file : Node, .node file ∈ rows.toList ∧ file.id = b.owner ∧ file.isFile
  counter {r : Register} : r ∈ [.nodeIdCounter, .blockIdCounter, .generationStamp] →
    ∃ value, rows.counterAt r value

def linkBelowRoot : Node :=
  ⟨⟨1⟩, .root, "s", .symlink, []⟩

def linked : Store :=
  Store.new.insert (.node linkBelowRoot)

theorem mem_linked_iff {row : Row} : row ∈ linked.rows.toList ↔
    row = .node linkBelowRoot ∨ row ∈ Store.new.rows.toList ∧ row.key ≠ .node ⟨1⟩ := by
  rw [linked, Store.insert, Store.put, SortedBy.mem_insert_iff]
  exact or_congr_right (and_congr_right fun _ => ne_comm)

theorem eq_of_mem_linked {n : Node} (h : .node n ∈ linked.rows.toList) :
    n = linkBelowRoot ∨ n = .root :=
  (mem_linked_iff.mp h).imp Row.node.inj fun h => eq_root_of_mem_new h.1

theorem linked_wellFormed : linked.rows.WellFormed where
  root := mem_linked_iff.mpr (.inr ⟨Store.Tidy.new.hierarchy.root, by decide⟩)
  parent hn _ := by
    refine ⟨.root, mem_linked_iff.mpr (.inr ⟨Store.Tidy.new.hierarchy.root, by decide⟩), ?_, rfl⟩
    obtain rfl | rfl := eq_of_mem_linked hn <;> rfl
  unique hm hn hmb hnb _ _ := by
    obtain rfl | rfl := eq_of_mem_linked hm
    · obtain rfl | rfl := eq_of_mem_linked hn
      · rfl
      · exact absurd rfl hnb
    · exact absurd rfl hmb
  rooted n hn := by
    obtain rfl | rfl := eq_of_mem_linked hn
    · exact .up hn (.refl _)
    · exact .refl _
  name hn hbelow := by
    obtain rfl | rfl := eq_of_mem_linked hn
    · decide +kernel
    · exact absurd rfl hbelow
  owner hb := by
    obtain hb | ⟨hb, -⟩ := mem_linked_iff.mp hb
    · cases hb
    · exact absurd (SortedBy.mem_of_mem_ofList hb) (by simp)
  counter hr := by
    obtain rfl | rfl | rfl : _ = Register.nodeIdCounter ∨ _ = Register.blockIdCounter ∨
      _ = Register.generationStamp := by simpa using hr
    · exact ⟨0, rfl⟩
    · exact ⟨0, rfl⟩
    · exact ⟨1000, rfl⟩

namespace Session.NamespaceOperation

theorem modes_agree_linked : linked.Calm ∧ linked.rows.Hierarchy ∧
    ∃ x v y v', ((makeDirectory "/d").execute {}).run { store := linked } = some (x, v) ∧
      ((makeDirectory "/d").execute { rowLevelLock := false }).run { store := linked } =
        some (y, v') ∧
      (¬(makeDirectory "/d").Diverges linked.rows → x = y ∧ v.store.rows = v'.store.rows) ∧
      ((makeDirectory "/d").Diverges linked.rows →
        (∃ fault, x = .error (.failed (.store fault)) ∧ fault.isContractViolation) ∧
          v.store.rows = linked.rows ∧ ∃ value, y = .ok value) := by
  have hcalm : linked.Calm := Store.Calm.new.insert _
  exact ⟨hcalm, linked_wellFormed.toHierarchy,
    modes_agree hcalm hcalm linked_wellFormed.toHierarchy rfl rfl (by simp)⟩

-- Under row locks a link cannot be deleted; without them it can.
theorem link_delete_differs : linked.Calm ∧ linked.rows.WellFormed ∧
    ∃ failure v value v', ((delete "/s").execute {}).run { store := linked } =
        some (.error failure, v) ∧
      ((delete "/s").execute { rowLevelLock := false }).run { store := linked } =
        some (.ok value, v') := by
  have hcalm : linked.Calm := Store.Calm.new.insert _
  have hrows := linked_wellFormed.toHierarchy
  have hdiverges : (delete "/s").Diverges linked.rows :=
    ⟨["s"], linkBelowRoot, by decide +kernel, by decide +kernel, by decide, by decide, by decide⟩
  obtain ⟨⟨fault, hlocked, -⟩, effect, hfree⟩ := outcome_diverges hdiverges
  have ⟨v, hrun, _⟩ := run_eq _ {} { store := linked } hcalm hrows hlocked
  have ⟨v', hrun', _⟩ := run_eq _ { rowLevelLock := false } { store := linked } hcalm hrows hfree
  exact ⟨hcalm, linked_wellFormed, _, v, _, v', hrun, hrun'⟩

end Session.NamespaceOperation

end NamespaceService
