import NamespaceService.Transaction.Acquire
import NamespaceService.Transaction.Config
import NamespaceService.Transaction.Failure

namespace NamespaceService

-- A unit of work over its own state `σ`, giving an `α`.
structure UnitOfWork (σ α : Type) where
  name : String
  coarse : CoarseMode := .none
  -- A storage to be locked around all attempts.
  storage : Option String := none
  -- Runs at the start of every attempt, before the transaction.
  setUp : σ → Program (Except Stop Unit × σ)
  requests : σ → Except Fault RequestSet
  perform : Resolved → σ → Context → Program ((Except Stop α × σ) × Context)

inductive AttemptEnd (α : Type)
  | committed (value : α)
  | retryable (fault : Fault)
  | aborted (failure : Failure)
  | overflow

namespace AttemptEnd

variable {α : Type}

def ofLocking (fault : Fault) : AttemptEnd α :=
  if fault.isTransient then retryable fault
  else if fault.isContractViolation then aborted (.store fault)
  else aborted (.lockAcquire fault)

def ofCommit (fault : Fault) : AttemptEnd α :=
  if fault.isContractViolation then aborted (.store fault) else retryable fault

def ofStop : Stop → AttemptEnd α
  | .failed failure =>
    match failure.transient? with
    | some fault => retryable fault
    | none => aborted failure
  | .overflow => overflow

-- What is reported of the attempt; of work that a counter ended, nothing.
def outcome? : AttemptEnd α → Option AttemptOutcome
  | committed _ => some .committed
  | retryable _ => some (.rolledBack true)
  | aborted _ => some (.rolledBack false)
  | overflow => none

end AttemptEnd

namespace UnitOfWork

variable {σ α : Type}

-- Locks the unit's rows and ends the lock phase, if rows are locked at all.
def lockRows (config : TransactionConfig) (name : String) (requests : Except Fault RequestSet) :
    Action Resolved := do
  if config.rowLevelLock then
    let resolved ← Action.acquire (← Action.ofExcept requests)
    let held := (← get).locks.size
    Action.log .debug (LogLine.timed s!"{name} all {held} locks acquired")
    Action.endLockPhase
    return resolved
  else return .empty

-- A failed rollback changes nothing about how the attempt ends.
def rollback (name : String) (c : Context) : Program Unit := do
  if let (.error fault, _) ← Action.rollback c then
    Program.log .warn s!"{name} rollback failed: {fault.message}"

def commit (name : String) (value : α) (c : Context) : Program (AttemptEnd α) := do
  match ← Action.commit c with
  | (.ok (), _) => return .committed value
  | (.error fault, c) =>
    rollback name c
    return .ofCommit fault

-- Locks, work and commit of an attempt, in a transaction that was just begun.
def transact (config : TransactionConfig) (name : String) (unit : UnitOfWork σ α) (state : σ)
    (tx : TxId) : Program (AttemptEnd α × σ) := do
  Program.log .debug s!"{name} tx started"
  match ← lockRows config name (unit.requests state) (.new tx) with
  | (.error fault, c) =>
    rollback name c
    return (.ofLocking fault, state)
  | (.ok resolved, c) =>
    match ← unit.perform resolved state c with
    | ((.ok value, state), c) => return (← commit name value c, state)
    | ((.error .overflow, state), _) => return (.overflow, state)
    | ((.error stop, state), c) =>
      rollback name c
      return (.ofStop stop, state)

def attempt (config : TransactionConfig) (name : String) (unit : UnitOfWork σ α) (state : σ) :
    Program (AttemptEnd α × σ) := do
  match ← unit.setUp state with
  | (.error stop, state) => return (.ofStop stop, state)
  | (.ok (), state) =>
    match ← Program.begin with
    | .error fault => return (.ofLocking fault, state)
    | .ok tx => transact config name unit state tx

def report (operation : String) (number : Nat) (outcome : Option AttemptOutcome) :
    Program Unit := do
  if let some outcome := outcome then
    Program.ask (.report { operation, attempt := number, outcome }) .done

-- Attempt `number` and those after it, of which there may be `left`. After a transient fault the
-- unit is tried again; every other failure is final.
def attempts (config : TransactionConfig) (name : String) (unit : UnitOfWork σ α) :
    (number left : Nat) → σ → Program (Except Stop α × σ)
  | number, left, state => do
    let (result, state) ← attempt config name unit state
    report unit.name number result.outcome?
    match result with
    | .committed value =>
      Program.log .debug (LogLine.timed s!"{name} committed on attempt {number}")
      return (.ok value, state)
    | .aborted failure =>
      Program.log .warn s!"{name} aborted on attempt {number}: {failure.message}"
      return (.error (.failed failure), state)
    | .overflow => return (.error .overflow, state)
    | .retryable fault =>
      let total := number + left
      Program.log .warn s!"{name} attempt {number} of {total} failed, retrying: {fault.message}"
      match left with
      | left + 1 => attempts config name unit (number + 1) left state
      | 0 =>
        Program.log .error s!"{name} giving up after {number} attempts: {fault.message}"
        return (.error (.failed (.retriesExhausted number fault)), state)

-- Holds the storage of the unit while `work` runs.
def withStorage {β : Type} (storage : Option String) (work : Program β) : Program β :=
  match storage with
  | none => work
  | some storage => do
    let lock : LockId ← Program.ask (.lockStorage storage) .done
    let result ← work
    Program.ask (.unlockStorage lock) fun _ => .done result

-- Holds the server-wide lock while `work` runs.
def withCoarse {β : Type} (mode : CoarseMode) (work : Program β) : Program β :=
  match mode with
  | .none => work
  | mode =>
    Program.ask (.lockCoarse mode) fun _ => do
      let result ← work
      Program.ask (.unlockCoarse mode) fun _ => .done result

-- Runs the unit until it commits, fails for good or is out of attempts.
def execute (config : TransactionConfig) (unit : UnitOfWork σ α) (state : σ) :
    Program (Except Stop α × σ) :=
  let name := config.correlation unit.name
  let coarse := if config.coarseLock then unit.coarse else .none
  withStorage unit.storage <| withCoarse coarse <|
    Program.claimedBy name <| attempts config name unit 1 (config.attempts - 1) state

end UnitOfWork

end NamespaceService
