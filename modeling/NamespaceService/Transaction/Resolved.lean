import NamespaceService.Path
import NamespaceService.Row.Basic

namespace NamespaceService

-- For each requested path the nodes that exist on it, and the rows of the other requests.
@[ext]
structure Resolved where
  -- Nodes on each requested path, root first; shorter than the path where a component is missing.
  paths : SortedBy (Prod.fst : String × List Node → String)
  -- Nodes locked again from a chain resolved elsewhere.
  chain : List Node
  -- Entries of directory targets, where they were requested.
  children : SortedBy (Prod.fst : NodeId × List Node → NodeId)
  blocks : List Block
  leases : List Lease
  replicas : List Replica
  replicasUnderConstruction : List Replica
  registers : List RegisterValue
deriving DecidableEq

namespace Resolved

def empty : Resolved where
  paths := .empty
  chain := []
  children := .empty
  blocks := []
  leases := []
  replicas := []
  replicasUnderConstruction := []
  registers := []

instance : Inhabited Resolved := ⟨empty⟩

variable (r : Resolved)

def chainOf? (path : String) : Option (List Node) :=
  (r.paths.find? path).map Prod.snd

def isFull (path : String) : Bool :=
  match r.chainOf? path, Path.depth path with
  | some chain, .ok depth => chain.length = depth
  | _, _ => false

def target? (path : String) : Option Node :=
  if r.isFull path then (r.chainOf? path).bind List.getLast? else none

def parent? (path : String) : Option Node :=
  match Path.depth path with
  | .ok depth => if depth < 2 then none else (r.chainOf? path).bind (·[depth - 2]?)
  | .error _ => none

def childrenOf? (dir : NodeId) : Option (List Node) :=
  (r.children.find? dir).map Prod.snd

def registerValue? (name : Register) : Option UInt64 :=
  (r.registers.find? (·.register = name)).map RegisterValue.value

def targets : List Node :=
  r.paths.toList.filterMap fun (path, _) => r.target? path

-- Ids of the given nodes, ascending and without repetition.
def idsOf (nodes : List Node) : List NodeId :=
  (SortedBy.ofList (nodes.map Node.id) : SortedBy (id : NodeId → NodeId)).toList

def files : List NodeId :=
  idsOf ((r.targets ++ r.chain.getLast?.toList).filter Node.isFile)

def directories : List NodeId :=
  idsOf (r.targets.filter Node.isDirectory)

end Resolved

end NamespaceService
