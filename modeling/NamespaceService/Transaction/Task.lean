import NamespaceService.Transaction.Engine

namespace NamespaceService

abbrev Task := ExceptT Stop (StateT Context Program)

namespace Task

variable {α : Type}

instance : MonadLift Action Task where
  monadLift action := fun c => do
    match ← action c with
    | (.ok a, c) => return (.ok a, c)
    | (.error fault, c) => return (.error (.failed (.store fault)), c)

def fail (error : OperationError) : Task α :=
  throw (.failed (.operation error))

def ofPath {β : Type} (result : Except Path.PathError β) : Task β :=
  match result with
  | .ok b => return b
  | .error e => throw (.failed (.store (.invalidRequest e.message)))

def log (level : Level) (message : String) : Task Unit :=
  Action.log level message

end Task

-- A unit of work that keeps no state between attempts.
def UnitOfWork.ofTask {α : Type} (name : String) (requests : Except Fault RequestSet)
    (task : Resolved → Task α) : UnitOfWork Unit α where
  name := name
  setUp _ := return (.ok (), ())
  requests _ := requests
  perform resolved _ c := do
    let (result, c) ← task resolved c
    return ((result, ()), c)

end NamespaceService
