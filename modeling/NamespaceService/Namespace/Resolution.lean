import NamespaceService.Row.Counter
import NamespaceService.Transaction.Task

namespace NamespaceService.Namespace

-- The node a path names and the node above it, as far as they exist.
structure Resolution where
  target : Option Node
  parent : Option Node
deriving DecidableEq, Inhabited

-- The nodes below `parent` that follow `names`; the walk ends where there is none, or no directory.
def walkDown : (parent : Node) → (names : List String) → Action (List Node)
  | _, [] => return []
  | parent, name :: names => do
    if !parent.isDirectory then return []
    match ← Action.findNode (.nodeNamed parent.id name) with
    | none => return []
    | some node => return node :: (← walkDown node names)

-- The nodes on a path that exist, root first. A path that was not locked is walked over committed
-- rows.
def chainOf (resolved : Resolved) (path : String) : Task (List Node) := do
  match resolved.chainOf? path with
  | some chain => return chain
  | none =>
    let names ← Task.ofPath (Path.components path)
    match ← Action.findNode (.node .root) with
    | none => return []
    | some root => return root :: (← walkDown root names)

def resolve (resolved : Resolved) (path : String) : Task Resolution := do
  let depth ← Task.ofPath (Path.depth path)
  let chain ← chainOf resolved path
  return {
    target := if chain.length = depth then chain[depth - 1]? else none
    parent := if depth < 2 then none else chain[depth - 2]?
  }

def parentDirectory (path : String) (resolution : Resolution) : Task Node :=
  match resolution.parent with
  | some parent =>
    if parent.isDirectory then return parent else Task.fail (.notADirectory parent.name)
  | none => Task.fail (.notFound ((Path.dirname? path).getD "/"))

def leafName (path : String) : Task String :=
  match Path.basename? path with
  | some name => return name
  | none => Task.fail (.invalidArgument s!"{path} has no final component")

def nextValue (counter : Register) : Task UInt64 := do
  match (← Action.find (.register counter)).bind Row.register? with
  | none =>
    throw (.failed (.store (.invalidRequest s!"variable {counter.text} is not initialised")))
  | some entry =>
    match Counter.next? entry.value with
    | none => throw .overflow
    | some value =>
      Action.upsert (.register ⟨counter, value⟩)
      return value

def children (dir : NodeId) : Task (List Node) := do
  return (← Action.findList (.children dir)).filterMap Row.node?

def lease? (holder : String) : Task (Option Lease) := do
  return (← Action.find (.lease holder)).bind Row.lease?

end NamespaceService.Namespace
