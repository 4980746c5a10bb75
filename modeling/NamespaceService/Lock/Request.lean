import NamespaceService.Fault
import NamespaceService.Row.Basic

namespace NamespaceService

inductive NodeTarget
  -- Paths, each walked from the root; with `children`, the entries of directory targets too.
  | paths (paths : List String) (children : Bool)
  -- A chain resolved elsewhere, root first, to be locked again by id.
  | chain (chain : List Node)
deriving DecidableEq, Inhabited

inductive BlockTarget
  | byId (block : BlockId) (owner : NodeId)
  -- Every block of the files that the node request resolves.
  | ofResolvedFiles
deriving DecidableEq, Inhabited

inductive LockRequest
  | nodes (mode : NodeMode) (target : NodeTarget)
  | blocks (kind : LockKind) (target : BlockTarget)
  | lease (kind : LockKind) (holder : String)
  -- Finished replicas of every resolved block.
  | replicas (kind : LockKind)
  -- Replicas of every resolved block that are still being written.
  | replicasUnderConstruction (kind : LockKind)
  | registers (kind : LockKind) (registers : List Register)
deriving DecidableEq, Inhabited

namespace LockRequest

def category : LockRequest → Category
  | nodes .. => .node
  | blocks .. => .block
  | lease .. => .lease
  | replicas _ => .replica
  | replicasUnderConstruction _ => .replicaUnderConstruction
  | registers .. => .register

end LockRequest

-- The requests of one unit of work, in the order in which they are acquired.
abbrev RequestSet := SortedBy LockRequest.category

namespace RequestSet

def add (requests : RequestSet) (request : LockRequest) : Except Fault RequestSet :=
  if requests.contains request.category then .error (.duplicateLock request.category)
  else .ok (requests.insert request)

def ofRequests (requests : List LockRequest) : Except Fault RequestSet :=
  requests.foldlM add .empty

def get (requests : RequestSet) (category : Category) : Except Fault LockRequest :=
  match requests.find? category with
  | some request => .ok request
  | none => .error (.lockNotAdded category)

def checkBlocks (requests : RequestSet) : Except Fault Unit :=
  match requests.find? .block with
  | some (.blocks _ .ofResolvedFiles) =>
    if requests.contains .node then .ok ()
    else .error (.invalidRequest "blocks of resolved files requested without a node lock")
  | _ => .ok ()

def checkReplicas (requests : RequestSet) : Except Fault Unit :=
  if (requests.contains .replica || requests.contains .replicaUnderConstruction)
      && !requests.contains .block then .error (.lockNotAdded .block)
  else .ok ()

def checkChain (requests : RequestSet) : Except Fault Unit :=
  match requests.find? .node with
  | some (.nodes _ (.chain (first :: _))) =>
    if first.isRoot then .ok ()
    else .error (.invalidRequest "resolved chain does not start at the root")
  | _ => .ok ()

def validate (requests : RequestSet) : Except Fault Unit := do
  requests.checkBlocks
  requests.checkReplicas
  requests.checkChain

end RequestSet

end NamespaceService
