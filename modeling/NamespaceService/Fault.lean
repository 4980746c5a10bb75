import NamespaceService.Lock.Kind

namespace NamespaceService

inductive Fault
  | conflict (what : String)
  | deadlock (what : String)
  | unavailable (what : String)
  | lockFailed (what : String)
  -- A lookup of the store after the lock phase.
  | storagePrevented (what : String)
  -- A change that no write lock covers; `held` says which lock was held instead.
  | lockUpgrade (key : Key) (held : String)
  | duplicateLock (category : Category)
  | lockNotAdded (category : Category)
  | invalidRequest (what : String)
deriving DecidableEq, Inhabited

namespace Fault

def message : Fault → String
  | conflict what => s!"optimistic concurrency conflict: {what}"
  | deadlock what => s!"deadlock detected: {what}"
  | unavailable what => s!"metadata store unavailable: {what}"
  | lockFailed what => s!"lock acquisition failed: {what}"
  | storagePrevented what => s!"storage access after lock phase: {what}"
  | lockUpgrade key held => s!"{key.text} modified without a write lock (held: {held})"
  | duplicateLock category => s!"lock category {category.text} requested twice"
  | lockNotAdded category => s!"lock category {category.text} was not requested"
  | invalidRequest what => s!"invalid lock request: {what}"

-- Contention seen by the store, which a new attempt may not meet.
def isTransient : Fault → Bool
  | conflict _ | deadlock _ | unavailable _ => true
  | _ => false

-- The request can never be satisfied as written.
def isContractViolation : Fault → Bool
  | storagePrevented _ | lockUpgrade .. | duplicateLock _ | lockNotAdded _ | invalidRequest _ => true
  | _ => false

end Fault

end NamespaceService
