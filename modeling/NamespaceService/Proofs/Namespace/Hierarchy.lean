import NamespaceService.Proofs.Concurrency.Crew
import NamespaceService.Proofs.Namespace.Commits
import NamespaceService.Session.Work

namespace NamespaceService

open Timeline

namespace Session.NamespaceOperation

open Namespace Program

variable {σ : Timeline} {config : TransactionConfig} {op : NamespaceOperation} {tx : TxId}
  {changes : List Change} {t n : Nat}

theorem give_reaches {α : Type} {unit : UnitOfWork Unit α} {value : α → Value} {call : Store.Call}
    (h : (give config unit value).Reaches σ call n t) :
    (unit.execute config ()).Reaches σ call n t := by
  obtain h | ⟨_, _, -, h⟩ := reaches_bind.mp h
  · exact h
  · cases h

theorem fileInfo_reads {path : String} (resolved : Resolved) :
    Stage.Reads (do return (← resolve resolved path).target : Task (Option Node)) :=
  fileInfo_straight.reads

-- Only a rename moves nodes.
def Moves : NamespaceOperation → Prop
  | .rename .. => True
  | _ => False

-- An operation is a unit of work whose task is straight.
theorem exists_task (op : NamespaceOperation) (config : TransactionConfig) :
    ∃ (α : Type) (name : String) (requests : List LockRequest) (task : Resolved → Task α)
      (value : α → Value),
      op.execute config = give config (.ofTask name (RequestSet.ofRequests requests) task) value ∧
        ∀ resolved, Stage.Straight (task resolved) := by
  cases op
  case makeDirectory => exact ⟨_, _, _, _, _, rfl, fun _ => makeDirectory_straight⟩
  case createFile => exact ⟨_, _, _, _, _, rfl, fun _ => createFile_straight⟩
  case delete => exact ⟨_, _, _, _, _, rfl, fun _ => delete_straight⟩
  case rename => exact ⟨_, _, _, _, _, rfl, fun _ => rename_straight⟩
  case addBlock => exact ⟨_, _, _, _, _, rfl, fun _ => addBlock_straight⟩
  case fileInfo => exact ⟨_, _, _, _, _, rfl, fun _ => fileInfo_straight⟩
  case listDirectory => exact ⟨_, _, _, _, _, rfl, fun _ => listDirectory_straight⟩

-- Operations never have to wait for a guard.
theorem execute_plain : (op.execute config).Only Request.Plain := by
  obtain ⟨α, name, requests, task, value, hexecute, hstraight⟩ := exists_task op config
  rw [hexecute]
  exact (UnitOfWork.execute_plain fun resolved => (hstraight resolved).reads).bind fun _ => trivial

-- What an operation commits is an edit of the rows that the commit finds.
theorem commit_edit (hlock : config.rowLevelLock)
    (h : (op.execute config).Reaches σ (.commit tx changes) n t) (hok : σ.Accepts n tx changes) :
    (σ.rows n).Edit op.Moves changes := by
  cases op
  case makeDirectory =>
    obtain ⟨o, ⟨a, ha⟩, hn, -, rfl, rfl⟩ :=
      UnitOfWork.execute_reaches (fun _ => makeDirectory_reads) (give_reaches h)
    exact MakeDirectory.edit hlock o ha hn hok
  case createFile =>
    obtain ⟨o, ⟨a, ha⟩, hn, -, rfl, rfl⟩ :=
      UnitOfWork.execute_reaches (fun _ => createFile_reads) (give_reaches h)
    exact CreateFile.edit hlock o ha hn hok
  case delete =>
    obtain ⟨o, ⟨a, ha⟩, hn, -, rfl, rfl⟩ :=
      UnitOfWork.execute_reaches (fun _ => delete_reads) (give_reaches h)
    exact Delete.edit hlock o ha hn hok
  case rename =>
    obtain ⟨o, ⟨a, ha⟩, hn, -, rfl, rfl⟩ :=
      UnitOfWork.execute_reaches (fun _ => rename_reads) (give_reaches h)
    exact Rename.edit hlock o ha hn hok
  case addBlock =>
    obtain ⟨o, ⟨a, ha⟩, hn, -, rfl, rfl⟩ :=
      UnitOfWork.execute_reaches (fun _ => addBlock_reads) (give_reaches h)
    exact AddBlock.edit hlock o ha hn hok
  case fileInfo =>
    obtain ⟨o, ⟨a, ha⟩, hn, -, rfl, rfl⟩ := UnitOfWork.execute_reaches fileInfo_reads (give_reaches h)
    exact fileInfo_edit hlock o ha
  case listDirectory =>
    obtain ⟨o, ⟨a, ha⟩, hn, -, rfl, rfl⟩ :=
      UnitOfWork.execute_reaches (fun _ => listDirectory_reads) (give_reaches h)
    exact ListDirectory.edit hlock o ha

end Session.NamespaceOperation

theorem eq_root_of_mem_new {n : Node} (h : .node n ∈ Store.new.rows.toList) : n = .root := by
  simpa using SortedBy.mem_of_mem_ofList h

-- What operations can start from.
structure Store.Tidy (s : Store) : Prop where
  coherent : s.Coherent
  hierarchy : s.rows.Hierarchy
  numbered : s.rows.Numbered

theorem Store.Tidy.new : Store.new.Tidy where
  coherent := .new
  hierarchy :=
    { root := by decide
      parent := fun hn hbelow => absurd (eq_root_of_mem_new hn ▸ rfl) hbelow
      unique := fun hm hn _ _ _ _ => (eq_root_of_mem_new hm).trans (eq_root_of_mem_new hn).symm }
  numbered :=
    { kind := fun hn => eq_root_of_mem_new hn ▸ .inl rfl
      node := ⟨0, rfl, fun n hn => eq_root_of_mem_new hn ▸ le_rfl⟩
      block := ⟨0, rfl, fun b hb => absurd (SortedBy.mem_of_mem_ofList hb) (by simp)⟩ }

namespace Session.NamespaceOperation

variable {ι : Type} [DecidableEq ι] {world : World} {op : ι → NamespaceOperation}
  {config : ι → TransactionConfig} {schedule : List ι} {n : Nat}

-- Operations that start together.
def crewIn (world : World) (op : ι → NamespaceOperation) (config : ι → TransactionConfig) :
    Crew ι (Except Stop Value) where
  world := world
  program i := (op i).execute (config i)

def crew (op : ι → NamespaceOperation) (config : ι → TransactionConfig) :
    Crew ι (Except Stop Value) :=
  crewIn { store := .new } op config

omit [DecidableEq ι] in
theorem crewIn_orderly (h : world.store.Coherent) : (crewIn world op config).Orderly where
  plain _ := execute_plain
  coherent := h

-- Whatever a step does to the rows is an edit of them.
theorem crewIn_edit (world : World) (op : ι → NamespaceOperation) (schedule : List ι) (n : Nat)
    (hlock : ∀ i, (config i).rowLevelLock) (hstart : world.store.Coherent) :
    ∃ changes, ((crewIn world op config).after schedule n).world.store.rows.Edit
        (∃ i, (op i).Moves) changes ∧
      ((crewIn world op config).after schedule (n + 1)).world.store.rows =
        ((crewIn world op config).after schedule n).world.store.rows.applyAll changes := by
  have horderly : (crewIn world op config).Orderly := crewIn_orderly hstart
  obtain hrows | ⟨i, tx, changes, hok : Accepts _ n tx changes⟩ := horderly.rows_succ schedule n
  · exact ⟨[], .nothing, hrows⟩
  · have hreaches := Crew.program_reaches hok.1 (Nat.zero_le n)
    exact ⟨changes, (commit_edit (hlock i) hreaches hok).mono fun h => ⟨i, h⟩, hok.rows⟩

theorem crewIn_tidy (hlock : ∀ i, (config i).rowLevelLock) (hstart : world.store.Tidy) (n : Nat) :
    ((crewIn world op config).after schedule n).world.store.Tidy := by
  induction n
  case zero => exact hstart
  case succ n ih =>
    have ⟨changes, hedit, hrows⟩ := crewIn_edit world op schedule n hlock hstart.coherent
    exact
      { coherent := ((crewIn_orderly hstart.coherent).after (n + 1)).coherent
        hierarchy := hrows ▸ hedit.hierarchy ih.hierarchy ih.numbered
        numbered := hrows ▸ hedit.numbered ih.numbered }

-- The hierarchy is kept, in whatever order the members take their turns.
theorem hierarchy_run (hlock : ∀ i, (config i).rowLevelLock) :
    ((crew op config).run schedule).world.store.rows.Hierarchy := by
  rw [← Crew.after_length]
  exact (crewIn_tidy hlock .new schedule.length).hierarchy

-- A directory is made and renamed. The rename has begun before, so it meets a conflict and tries again.
theorem hierarchy_run_twoMembers :
    let op : Bool → NamespaceOperation := fun i =>
      if i then .rename "/a" "/b" else .makeDirectory "/a"
    let schedule := List.replicate 4 true ++ List.replicate 20 false ++ List.replicate 60 true
    let run := (crew op fun _ => {}).run schedule
    TransactionConfig.rowLevelLock {} ∧ (∀ i, (run.result? i).any (·.isOk)) ∧
      (run.world.store.rows.lookup (.nodeNamed .root "b")).isSome ∧ run.world.store.rows.Hierarchy :=
  ⟨rfl, by decide +kernel, by decide +kernel, hierarchy_run fun _ => rfl⟩

end Session.NamespaceOperation

end NamespaceService
