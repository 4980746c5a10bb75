import NamespaceService.Namespace.Operations
import NamespaceService.Session.Steps

namespace NamespaceService.Session

inductive NamespaceOperation
  | makeDirectory (path : String)
  | createFile (path holder : String)
  | delete (path : String)
  | rename (source destination : String)
  | addBlock (path holder : String)
  | fileInfo (path : String)
  | listDirectory (path : String)

structure ScriptHeader where
  name : String
  coarse : CoarseMode
  storage : Option String
  requests : List LockRequest

mutual

-- A script says which locks it asks for and what it does before and inside the transaction. It can
-- run other units of work inside its own, fail at a chosen attempt, and work on the store directly.
inductive Work
  | operation (operation : NamespaceOperation)
  | script (header : ScriptHeader) (setUp : List SetUpStep) (task : List TaskStep)

inductive SetUpStep
  | fail (failure : Failure)
  -- Runs a unit of work of its own, under other settings if they are given.
  | nested (config : Option TransactionConfig) (work : Work)
  | coarseIsFree
  | storageCount
  | outside (command : Store.Command)
  -- Is taken only in these attempts.
  | onlyIn (attempts : List Nat) (step : SetUpStep)

inductive TaskStep
  | plain (step : SetUpStep)
  -- Reports on what locking found.
  | resolved (ask : List String)
  -- A tolerant step goes on after a fault.
  | context (step : ContextStep) (tolerant : Bool)
  | onlyIn (attempts : List Nat) (step : TaskStep)

end

mutual

inductive Value
  | nothing
  | flag (value : Bool)
  | count (value : Nat)
  | id (id : NodeId)
  | block (block : Block)
  | node (node : Option Node)
  | names (names : List String)
  | reply (reply : Reply)
  | direct (reply : Store.Reply)
  | fault (fault : Fault)
  -- An attempt at a script began.
  | attempt (number : Nat)
  | report (report : RunReport)

-- How a unit of work ended; of a script also the attempts that began, and the trace.
inductive RunReport
  | mk (result : Except Failure Value) (retryCount : UInt32) (coarseIsFree : Bool)
    (script : Option (Nat × List Value))

end

structure Trace where
  attempts : Nat := 0
  values : List Value := []

namespace Trace

def push (trace : Trace) (value : Value) : Trace :=
  { trace with values := trace.values ++ [value] }

def beginAttempt (trace : Trace) : Trace :=
  { trace with attempts := trace.attempts + 1 }.push (.attempt (trace.attempts + 1))

end Trace

namespace NamespaceOperation

def give {α : Type} (config : TransactionConfig) (unit : UnitOfWork Unit α) (value : α → Value) :
    Program (Except Stop Value) := do
  let (result, _) ← unit.execute config ()
  return result.map value

def execute (config : TransactionConfig) : NamespaceOperation → Program (Except Stop Value)
  | .makeDirectory path => give config (Namespace.makeDirectory path) .id
  | .createFile path holder => give config (Namespace.createFile path holder) .id
  | .delete path => give config (Namespace.delete path) .flag
  | .rename source destination =>
    give config (Namespace.rename source destination) fun _ => .nothing
  | .addBlock path holder => give config (Namespace.addBlock path holder) .block
  | .fileInfo path => give config (Namespace.fileInfo path) .node
  | .listDirectory path => give config (Namespace.listDirectory path) .names

end NamespaceOperation

-- The report of a unit of work that ended; a counter that left its word leaves none.
def reportOf (config : TransactionConfig) (result : Except Stop Value)
    (script : Option (Nat × List Value)) : Program (Except Stop RunReport) := do
  let free : Bool ← Program.ask .coarseIsFree .done
  match result with
  | .ok value => return .ok (.mk (.ok value) config.retryCount free script)
  | .error (.failed failure) => return .ok (.mk (.error failure) config.retryCount free script)
  | .error .overflow => return .error .overflow

-- The work of a script inside its transaction, as the engine runs it: the steps give the trace, the
-- value of the last step that was taken, and the context.
abbrev TaskRun := (Except Stop Value × Trace) × Context

def contextValue (step : ContextStep) (tolerant : Bool) (c : Context) :
    Program (Except Stop Value × Context) := do
  match ← step.run c with
  | (.ok reply, c) => return (.ok (.reply reply), c)
  | (.error fault, c) =>
    if tolerant then return (.ok (.fault fault), c)
    else return (.error (.failed (.store fault)), c)

mutual

-- Runs a unit of work; settings of nested work default to `config`.
def Work.execute (config settings : TransactionConfig) : Work → Program (Except Stop RunReport)
  | .operation operation => do
    reportOf settings (← operation.execute settings) none
  | .script header setUp task => do
    let unit : UnitOfWork Trace Value := {
      name := header.name
      coarse := header.coarse
      storage := header.storage
      setUp := fun trace => SetUpStep.runAll config setUp trace.beginAttempt
      requests := fun _ => RequestSet.ofRequests header.requests
      perform := fun resolved trace c =>
        TaskStep.runAll config header resolved .nothing task trace c
    }
    let (result, trace) ← unit.execute settings {}
    reportOf settings result (some (trace.attempts, trace.values))

-- Takes one step; without a value the step was not meant for this attempt.
def SetUpStep.take (config : TransactionConfig) (attempt : Nat) :
    SetUpStep → Program (Except Stop (Option Value))
  | .fail failure => return .error (.failed failure)
  | .nested settings work => do
    return (← work.execute config (settings.getD config)).map (some ∘ .report)
  | .coarseIsFree => do
    let free : Bool ← Program.ask .coarseIsFree .done
    return .ok (some (.flag free))
  | .storageCount => do
    let count : Nat ← Program.ask .storageCount .done
    return .ok (some (.count count))
  | .outside command => do
    let reply : Option Store.Reply ← Program.ask (.direct command) .done
    match reply with
    | some reply => return .ok (some (.direct reply))
    | none => return .error .overflow
  | .onlyIn attempts step =>
    if attempt ∈ attempts then SetUpStep.take config attempt step else return .ok none

def SetUpStep.runAll (config : TransactionConfig) :
    List SetUpStep → Trace → Program (Except Stop Unit × Trace)
  | [], trace => return (.ok (), trace)
  | step :: steps, trace => do
    match ← SetUpStep.take config trace.attempts step with
    | .error stop => return (.error stop, trace)
    | .ok none => SetUpStep.runAll config steps trace
    | .ok (some value) => SetUpStep.runAll config steps (trace.push value)

def TaskStep.take (config : TransactionConfig) (header : ScriptHeader) (resolved : Resolved)
    (attempt : Nat) : TaskStep → Context → Program (Except Stop (Option Value) × Context)
  | .plain step, c => do return (← SetUpStep.take config attempt step, c)
  | .resolved ask, c =>
    let report := ResolvedReport.ofResolved resolved
      (ResolvedReport.pathsOf header.requests ++ ask)
    return (.ok (some (.reply (.resolved report))), c)
  | .context step tolerant, c => do
    let (value, c) ← contextValue step tolerant c
    return (value.map some, c)
  | .onlyIn attempts step, c =>
    if attempt ∈ attempts then TaskStep.take config header resolved attempt step c
    else return (.ok none, c)

def TaskStep.runAll (config : TransactionConfig) (header : ScriptHeader) (resolved : Resolved)
    (last : Value) : List TaskStep → Trace → Context → Program TaskRun
  | [], trace, c => return ((.ok last, trace), c)
  | step :: steps, trace, c => do
    match ← TaskStep.take config header resolved trace.attempts step c with
    | (.error stop, c) => return ((.error stop, trace), c)
    | (.ok none, c) => TaskStep.runAll config header resolved last steps trace c
    | (.ok (some value), c) =>
      TaskStep.runAll config header resolved value steps (trace.push value) c

end

end NamespaceService.Session
