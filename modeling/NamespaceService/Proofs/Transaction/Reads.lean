import NamespaceService.Namespace.Operations
import NamespaceService.Proofs.Transaction.Reading

namespace NamespaceService

namespace Action

open Stage

variable {mode : NodeMode} {requests : RequestSet}

theorem lockPaths_straight {paths : List String} : Straight (lockPaths mode paths) :=
  lockPaths_reading.straight

theorem lockChainFrom_straight {levels level : Nat} {leafIsDirectory : Bool} {parent : Option Node}
    {chain : List Node} : Straight (lockChainFrom mode levels leafIsDirectory level parent chain) :=
  lockChainFrom_reading.straight

theorem acquire_straight : Straight (acquire requests) :=
  acquire_reading.straight

theorem acquire_reads : Reads (acquire requests) :=
  acquire_straight.reads

end Action

open Stage

namespace UnitOfWork

variable {config : TransactionConfig} {name : String} {requests : Except Fault RequestSet}

theorem lockRows_straight (h : ∀ fault, requests = .error fault → ¬fault.isTransient) :
    Straight (lockRows config name requests) := by
  rw [lockRows]
  refine .ite ((Straight.ofExcept h).bind fun _ => Action.acquire_straight.bind fun _ => ?_) .pure
  exact .get (fun _ => Straight.log.bind fun _ => Straight.endLockPhase.bind fun _ => .pure)
    fun _ _ => rfl

theorem lockRows_reads : Reads (lockRows config name requests) := by
  cases requests
  case ok => exact (lockRows_straight fun _ h => by cases h).reads
  case error =>
    rw [lockRows]
    split
    case isTrue => exact fun _ => rfl
    case isFalse => exact .pure

end UnitOfWork

namespace Namespace

variable {path holder : String} {resolved : Resolved}

theorem ofPath_straight {β : Type} {result : Except Path.PathError β} :
    Straight (Task.ofPath result) := by
  cases result
  case ok => exact .pure
  case error => exact .throw Bool.false_ne_true

theorem fail_straight {α : Type} {error : OperationError} : Straight (Task.fail error : Task α) :=
  .throw trivial

theorem walkDown_straight {parent : Node} {names : List String} : Straight (walkDown parent names) := by
  induction names generalizing parent
  case nil => exact .pure
  case cons name names ih =>
    rw [walkDown]
    refine .ite .pure (Action.findNode_reading.straight.bind fun node => ?_)
    cases node
    case none => exact .pure
    case some => exact ih.bind fun _ => .pure

theorem chainOf_straight : Straight (chainOf resolved path) := by
  rw [chainOf]
  split
  case h_1 => exact .pure
  case h_2 =>
    refine ofPath_straight.bind fun names => (Straight.lift Action.findNode_reading.straight).bind fun root => ?_
    cases root
    case none => exact .pure
    case some => exact (Straight.lift walkDown_straight).bind fun _ => .pure

theorem resolve_straight : Straight (resolve resolved path) :=
  ofPath_straight.bind fun _ => chainOf_straight.bind fun _ => .pure

theorem parentDirectory_straight {resolution : Resolution} :
    Straight (parentDirectory path resolution) := by
  rw [parentDirectory]
  split
  case h_1 => exact .ite .pure fail_straight
  case h_2 => exact fail_straight

theorem leafName_straight : Straight (leafName path) := by
  rw [leafName]
  split
  case h_1 => exact .pure
  case h_2 => exact fail_straight

theorem nextValue_straight {counter : Register} : Straight (nextValue counter) := by
  refine (Straight.lift .find).bind fun found => ?_
  split
  case h_1 => exact .throw Bool.false_ne_true
  case h_2 =>
    split
    case h_1 => exact .throw trivial
    case h_2 => exact (Straight.lift .upsert).bind fun _ => .pure

theorem children_straight {dir : NodeId} : Straight (children dir) :=
  (Straight.lift .findList).bind fun _ => .pure

theorem lease?_straight : Straight (lease? holder) :=
  (Straight.lift .find).bind fun _ => .pure

theorem log_straight {level : Level} {message : String} : Straight (Task.log level message) :=
  .lift .log

theorem upsert_straight {row : Row} : Straight (liftM (Action.upsert row) : Task Unit) :=
  .lift .upsert

theorem remove_straight {key : Key} : Straight (liftM (Action.remove key) : Task Unit) :=
  .lift .remove

-- A check that can fail comes before the rest of a task.
theorem check_straight {α : Type} {p : Prop} [Decidable p] {error : OperationError}
    {rest : Unit → Task α} (hrest : ∀ u, Straight (rest u)) :
    Straight (if p then Task.fail error >>= rest else rest ()) :=
  .ite (fail_straight.bind hrest) (hrest ())

theorem makeDirectory_straight : Straight (MakeDirectory.task path resolved) :=
  resolve_straight.bind fun _ => check_straight fun _ => parentDirectory_straight.bind fun _ =>
    leafName_straight.bind fun _ => nextValue_straight.bind fun _ => upsert_straight.bind fun _ =>
    log_straight.bind fun _ => .pure

theorem createFile_straight : Straight (CreateFile.task path holder resolved) :=
  resolve_straight.bind fun _ => check_straight fun _ => parentDirectory_straight.bind fun _ =>
    leafName_straight.bind fun _ => nextValue_straight.bind fun _ => upsert_straight.bind fun _ =>
    lease?_straight.bind fun _ => upsert_straight.bind fun _ => log_straight.bind fun _ => .pure

theorem removeBlocks_straight {file : NodeId} : Straight (Delete.removeBlocks file) :=
  (Straight.lift .findList).bind fun _ => .forM fun _ => remove_straight

theorem delete_straight : Straight (Delete.task path resolved) := by
  refine resolve_straight.bind fun resolution => ?_
  split
  case h_2 => exact .pure
  case h_1 target _ =>
    refine check_straight fun _ => ?_
    refine .ite (children_straight.bind fun _ => check_straight fun _ => ?_)
      (removeBlocks_straight.bind fun _ => ?_)
    all_goals exact remove_straight.bind fun _ => log_straight.bind fun _ => .pure

theorem rename_straight {destination : String} : Straight (Rename.task path destination resolved) := by
  refine ofPath_straight.bind fun start => ofPath_straight.bind fun goal => ?_
  have hcheck : Straight (Rename.checkArguments path destination start goal) :=
    check_straight fun _ => .ite fail_straight .pure
  refine hcheck.bind fun _ => resolve_straight.bind fun resolution => ?_
  split
  case h_2 => exact fail_straight
  case h_1 =>
    exact .ite .pure (resolve_straight.bind fun _ => check_straight fun _ =>
      parentDirectory_straight.bind fun _ => leafName_straight.bind fun _ => upsert_straight.bind fun _ =>
      log_straight)

theorem checkLease_straight : Straight (AddBlock.checkLease path holder) := by
  refine lease?_straight.bind fun lease => ?_
  cases lease <;> exact .ite fail_straight .pure

theorem addBlock_straight : Straight (AddBlock.task path holder resolved) := by
  refine resolve_straight.bind fun resolution => ?_
  split
  case h_2 => exact fail_straight
  case h_1 =>
    exact check_straight fun _ => checkLease_straight.bind fun _ => nextValue_straight.bind fun _ =>
      nextValue_straight.bind fun _ => upsert_straight.bind fun _ => upsert_straight.bind fun _ =>
      log_straight.bind fun _ => .pure

theorem listDirectory_straight : Straight (ListDirectory.task path resolved) := by
  refine resolve_straight.bind fun resolution => ?_
  split
  case h_2 => exact fail_straight
  case h_1 => exact check_straight fun _ => children_straight.bind fun _ => .pure

theorem fileInfo_straight :
    Straight (do return (← resolve resolved path).target : Task (Option Node)) :=
  resolve_straight.bind fun _ => .pure

theorem makeDirectory_reads : Reads (MakeDirectory.task path resolved) :=
  makeDirectory_straight.reads

theorem createFile_reads : Reads (CreateFile.task path holder resolved) :=
  createFile_straight.reads

theorem delete_reads : Reads (Delete.task path resolved) :=
  delete_straight.reads

theorem rename_reads {destination : String} : Reads (Rename.task path destination resolved) :=
  rename_straight.reads

theorem addBlock_reads : Reads (AddBlock.task path holder resolved) :=
  addBlock_straight.reads

theorem listDirectory_reads : Reads (ListDirectory.task path resolved) :=
  listDirectory_straight.reads

end Namespace

end NamespaceService
