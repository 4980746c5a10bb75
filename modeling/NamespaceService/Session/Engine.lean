import NamespaceService.Session.Transactions
import NamespaceService.Session.Work

namespace NamespaceService.Session

inductive EngineStep
  | direct (command : Store.Command)
  -- Runs a unit of work, under other settings if they are given.
  | run (config : Option TransactionConfig) (work : Work)

inductive EngineResult
  | direct (reply : Option Store.Reply)
  -- Without a report a counter left its word, and the unit of work ended there.
  | run (report : Option RunReport) (reports : List AttemptReport) (storages : Nat)

structure EngineObservation where
  result : EngineResult
  events : List Event

namespace EngineStep

def reportOf : Except Stop RunReport → Option RunReport
  | .ok report => some report
  | .error _ => none

def program (config : TransactionConfig) :
    EngineStep → Program (Option Store.Reply ⊕ Option RunReport)
  | .direct command => Program.ask (.direct command) fun reply => .done (.inl reply)
  | .run settings work => do
    return .inr (reportOf (← work.execute config (settings.getD config)))

def observe (before after : World) (answer : Option Store.Reply ⊕ Option RunReport) :
    EngineObservation where
  result := match answer with
    | .inl reply => .direct reply
    | .inr report =>
      .run report (after.reports.drop before.reports.length) after.storages.size
  events := Transactions.eventsSince before.store after.store

-- Takes steps one after another. A step that waits for ever ends the session.
def runAll (config : TransactionConfig) : List EngineStep → World →
    List EngineObservation × World
  | [], w => ([], w)
  | step :: steps, w =>
    match (step.program config).run w with
    | none => ([], w)
    | some (answer, w') =>
      let (rest, w'') := runAll config steps w'
      (observe w w' answer :: rest, w'')

end EngineStep

end NamespaceService.Session
