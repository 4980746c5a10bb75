import NamespaceService.Session.Steps

namespace NamespaceService.Session

inductive OpenTransaction
  | context (context : Context)
  | bare (transaction : BareTransaction)

structure Transactions where
  world : World
  opened : List (String × OpenTransaction) := []

-- A step under the name of a transaction, as it is meant for each sort of transaction.
structure NamedStep where
  onContext : Option ContextStep
  onBare : Option BareStep

inductive Step
  | direct (command : Store.Command)
  | begin (name : String) (bare : Bool)
  | transaction (name : String) (step : NamedStep)

inductive StepResult
  -- Without a reply a counter would have left its word.
  | direct (reply : Option Store.Reply)
  | reply (reply : Except Fault Reply)
  | noSuchTransaction

-- What there is to see after a step: its result, the calls of the store, and, after a step on a
-- context, that context.
structure Observation where
  result : StepResult
  events : List Event
  context : Option Context

namespace Transactions

def ofPaths (paths : List String) : Transactions where
  world := { store := .ofPaths paths }

def opened? (s : Transactions) (name : String) : Option OpenTransaction :=
  s.opened.lookup name

def setOpened (s : Transactions) (name : String) (transaction : OpenTransaction) : Transactions :=
  { s with opened := (name, transaction) :: s.opened.filter (·.1 ≠ name) }

-- Runs a program on the session's world. Transactions wait for nothing, so there is a result.
def exec {α : Type} (s : Transactions) (program : Program α) : Option (α × Transactions) :=
  (program.run s.world).map fun (a, world) => (a, { s with world })

def begin (s : Transactions) (name : String) (bare : Bool) : Option (StepResult × Transactions) := do
  let (result, s) ← s.exec Program.begin
  match result with
  | .error fault => return (.reply (.error fault), s)
  | .ok tx =>
    let transaction : OpenTransaction := if bare then .bare { tx } else .context (.new tx)
    return (.reply (.ok .done), s.setOpened name transaction)

def onOpened (s : Transactions) (name : String) (step : NamedStep) :
    Option (StepResult × Transactions) :=
  match s.opened? name with
  | none => some (.noSuchTransaction, s)
  | some (.context c) => do
    let ((reply, c), s) ← s.exec ((← step.onContext).run c)
    return (.reply reply, s.setOpened name (.context c))
  | some (.bare t) => do
    let ((reply, t), s) ← s.exec ((← step.onBare).run t)
    return (.reply reply, s.setOpened name (.bare t))

def perform (s : Transactions) : Step → Option (StepResult × Transactions)
  | .direct command => do
    let (reply, s) ← s.exec (Program.ask (.direct command) .done)
    return (.direct reply, s)
  | .begin name bare => s.begin name bare
  | .transaction name step => s.onOpened name step

def Step.name? : Step → Option String
  | .direct _ => none
  | .begin name _ | .transaction name _ => some name

-- The events that were recorded after `before`; all of them, if they were cleared since.
def eventsSince (before after : Store) : List Event :=
  if after.events.length < before.events.length then after.events
  else after.events.drop before.events.length

def observe (before : Store) (step : Step) (result : StepResult) (s : Transactions) :
    Observation where
  result := result
  events := eventsSince before s.world.store
  context := match (Step.name? step).bind s.opened? with
    | some (.context c) => some c
    | _ => none

-- Takes steps one after another; a step that the transaction does not have ends the session.
def run (s : Transactions) : List Step → List Observation × Transactions
  | [] => ([], s)
  | step :: steps =>
    match s.perform step with
    | none => ([], s)
    | some (result, s') =>
      let (rest, s'') := run s' steps
      (observe s.world.store step result s' :: rest, s'')

end Transactions

end NamespaceService.Session
