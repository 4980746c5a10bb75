import NamespaceService.Fault

namespace NamespaceService

inductive OperationError
  | notFound (what : String)
  | alreadyExists (what : String)
  | notADirectory (what : String)
  | notAFile (what : String)
  | directoryNotEmpty (what : String)
  | invalidArgument (what : String)
  | deviceFailure (what : String)
deriving DecidableEq, Inhabited

def OperationError.message : OperationError → String
  | notFound what => s!"not found: {what}"
  | alreadyExists what => s!"already exists: {what}"
  | notADirectory what => s!"not a directory: {what}"
  | notAFile what => s!"not a file: {what}"
  | directoryNotEmpty what => s!"directory not empty: {what}"
  | invalidArgument what => s!"invalid argument: {what}"
  | deviceFailure what => s!"I/O error: {what}"

inductive Failure
  | store (fault : Fault)
  | lockAcquire (fault : Fault)
  | operation (error : OperationError)
  | retriesExhausted (attempts : Nat) (last : Fault)
deriving DecidableEq, Inhabited

namespace Failure

def message : Failure → String
  | .store fault => s!"metadata store error: {fault.message}"
  | .lockAcquire fault => s!"lock acquisition failed: {fault.message}"
  | .operation error => error.message
  | .retriesExhausted attempts last =>
    s!"transaction failed after {attempts} attempts: {last.message}"

-- The fault after which the work is tried again.
def transient? : Failure → Option Fault
  | .store fault => if fault.isTransient then some fault else none
  | _ => none

def isContractViolation : Failure → Bool
  | .store fault => fault.isContractViolation
  | _ => false

end Failure

-- Why work stops early: it failed, or a counter left its word, which ends everything around the
-- work as well.
inductive Stop
  | failed (failure : Failure)
  | overflow
deriving DecidableEq, Inhabited

end NamespaceService
