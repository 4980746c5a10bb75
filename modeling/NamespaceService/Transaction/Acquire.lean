import NamespaceService.Lock.Request
import NamespaceService.Transaction.Action
import NamespaceService.Transaction.Resolved

namespace NamespaceService

-- How strongly a position is to be locked: at some kind, or, at the end of a path whose parent is
-- locked for writing, at a kind that depends on the node found there.
structure Want where
  kind : Option LockKind
  typedLeaf : Bool
deriving DecidableEq, Inhabited

namespace Want

def nothing : Want := ⟨none, false⟩

def orKind (want : Want) (kind : LockKind) : Want :=
  match want.kind with
  | some k => { want with kind := some (max k kind) }
  | none => { want with kind := some kind }

def addPath (mode : NodeMode) (here : Position) (want : Want) (path : Position) : Want :=
  if !here.isPrefixOf path then want
  else if here = path ∧ here ≠ [] ∧ mode = .writeOnParent then { want with typedLeaf := true }
  else want.orKind (mode.kindAt here.length (path.length + 1) false)

def ofPaths (mode : NodeMode) (paths : List Position) (here : Position) : Want :=
  paths.foldl (addPath mode here) nothing

end Want

-- Every position on the way to the given ones, in order.
def Position.closure (paths : List Position) : List Position :=
  (SortedBy.ofList (paths.flatMap Position.fromRoot) : SortedBy (id : Position → Position)).toList

-- Nodes locked so far by a walk.
abbrev LockedAt := Position → Option Node

namespace LockedAt

def nowhere : LockedAt := fun _ => none

def set (locked : LockedAt) (here : Position) (node : Node) : LockedAt := fun p =>
  if p = here then some node else locked p

-- How to look up the node at a position, once the directory above it is locked.
def finder? (locked : LockedAt) (here : Position) : Option Finder :=
  match here.getLast? with
  | none => some (.node .root)
  | some name =>
    match locked here.dropLast with
    | some parent => if parent.isDirectory then some (.nodeNamed parent.id name) else none
    | none => none

-- The nodes from the root down to the first position that was not locked.
def chainTo (locked : LockedAt) (path : Position) : List Node :=
  ((path.fromRoot.map locked).takeWhile Option.isSome).filterMap id

end LockedAt

abbrev Chains := SortedBy (Prod.fst : String × List Node → String)

namespace Action

-- The kind to lock at a position. A typed leaf is probed first, once its parent is locked for
-- writing.
def settleKind (mode : NodeMode) (want : Want) (level : Nat) (finder : Finder) :
    Action (Option LockKind) := do
  if want.typedLeaf ∧ want.kind ≠ some .write then
    match (← probe finder).bind Row.node? with
    | none => return none
    | some leaf => return (want.orKind (mode.kindAt level (level + 1) leaf.isDirectory)).kind
  else return want.kind

-- Positions are in order, so the first one below `here` comes next, if there is one.
def noteDeadEnd (here : Position) (rest : List Position) (node : Node) : Action Unit := do
  if !node.isDirectory then
    if let some (component :: _) := rest.head?.bind (here.isPrefixOf? ·) then
      log .debug s!"resolution stops before {component}: node {node.id.text} is not a directory"

def lockPosition (mode : NodeMode) (paths : List Position) (locked : LockedAt) (here : Position)
    (rest : List Position) : Action LockedAt := do
  let some finder := locked.finder? here | return locked
  let want := Want.ofPaths mode paths here
  let some kind ← settleKind mode want here.length finder | return locked
  let some node ← lockNode kind finder | return locked
  noteDeadEnd here rest node
  return locked.set here node

def walk (mode : NodeMode) (paths : List Position) : LockedAt → List Position → Action LockedAt
  | locked, [] => return locked
  | locked, here :: rest => do
    let locked ← lockPosition mode paths locked here rest
    walk mode paths locked rest

def parsePath (path : String) : Except Fault (String × Position) :=
  match Path.components path with
  | .ok names => .ok (path, names)
  | .error e => .error (.invalidRequest e.message)

def noteResolved (locked : LockedAt) (path : String × Position) : Action Unit :=
  let found := (locked.chainTo path.2).length
  log .debug s!"resolved {found} of {path.2.length + 1} levels for {path.1}"

-- Locks several paths as one tree, in the order of positions, so each node is locked once, after
-- its parent, at the strongest kind that any of the paths wants. No lock is taken if one of the
-- paths is malformed.
def lockPaths (mode : NodeMode) (paths : List String) : Action Chains := do
  let parsed ← ofExcept (paths.mapM parsePath)
  let positions := parsed.map Prod.snd
  let locked ← walk mode positions .nowhere (Position.closure positions)
  parsed.forM (noteResolved locked)
  return .ofList (parsed.map fun (path, names) => (path, locked.chainTo names))

-- Locks one path from the root; a missing component ends the walk.
def lockPath (mode : NodeMode) (path : String) : Action (List Node) := do
  let chains ← lockPaths mode [path]
  return ((chains.find? path).map Prod.snd).getD []

-- A node is where a chain resolved earlier had it: under the node before, with the same name.
def isInPlace (parent : Option Node) (expected found : Node) : Bool :=
  match parent with
  | some parent => found.parent = parent.id && found.name = expected.name
  | none => found.isRoot

-- Locks the rest of a chain below `parent`, where the node at `level` comes next.
def lockChainFrom (mode : NodeMode) (levels : Nat) (leafIsDirectory : Bool) :
    (level : Nat) → (parent : Option Node) → List Node → Action (List Node)
  | _, _, [] => return []
  | level, parent, expected :: rest => do
    let kind := mode.kindAt level levels leafIsDirectory
    match ← lockNode kind (.node expected.id) with
    | none =>
      log .debug s!"cached node {expected.id.text} no longer exists"
      return []
    | some node =>
      if isInPlace parent expected node then
        return node :: (← lockChainFrom mode levels leafIsDirectory (level + 1) (some node) rest)
      else
        log .debug s!"cached node {node.id.text} moved since it was resolved"
        return []

-- Locks a chain again by id, at the kinds a walk over its names would take. The chain ends before
-- the first node that vanished or moved.
def lockChain (mode : NodeMode) (expected : List Node) : Action (List Node) :=
  let leafIsDirectory := (expected.getLast?.map Node.isDirectory).getD false
  lockChainFrom mode expected.length leafIsDirectory 0 none expected

-- Locks the entries of every directory target, at the kind held on the directory.
def lockChildren (directories : List NodeId) :
    Action (List (NodeId × List Node)) :=
  directories.mapM fun dir => do
    let kind := ((← get).locks.kindOf? (.node dir)).getD .readCommitted
    let found ← lockList kind (.children dir)
    return (dir, found.filterMap Row.node?)

def lockBlocks (kind : LockKind) (target : BlockTarget) (files : List NodeId) :
    Action (List Block) := do
  match target with
  | .byId id owner =>
    let found ← lockFind kind (.block id)
    return [(found.bind Row.block?).getD (.absent id owner)]
  | .ofResolvedFiles =>
    let found ← files.mapM fun file => lockList kind (.blocksOf file)
    return found.flatten.filterMap Row.block?

-- Locks the replicas of the blocks that the store holds.
def lockReplicas (kind : LockKind) (blocks : List Block) (finder : BlockId → Finder) :
    Action (List Replica) := do
  let ids := ((blocks.filter (!·.placeholder)).map Block.id)
  let sorted : SortedBy (id : BlockId → BlockId) := .ofList ids
  let found ← sorted.toList.mapM fun block => lockList kind (finder block)
  return found.flatten.filterMap Row.replica?

def lockRegisters (kind : LockKind) (registers : List Register) : Action (List RegisterValue) := do
  let sorted : SortedBy (id : Register → Register) := .ofList registers
  let found ← sorted.toList.mapM fun name => lockFind kind (.register name)
  return found.filterMap (·.bind Row.register?)

def acquireOne (r : Resolved) : LockRequest → Action Resolved
  | .nodes mode (.paths paths children) => do
    let r := { r with paths := ← lockPaths mode paths }
    if children then
      return { r with children := .ofList (← lockChildren r.directories) }
    else return r
  | .nodes mode (.chain chain) => return { r with chain := ← lockChain mode chain }
  | .blocks kind target => return { r with blocks := ← lockBlocks kind target r.files }
  | .lease kind holder => do
    let found ← lockFind kind (.lease holder)
    return { r with leases := (found.bind Row.lease?).toList }
  | .replicas kind => return { r with replicas := ← lockReplicas kind r.blocks .replicas }
  | .replicasUnderConstruction kind => do
    let found ← lockReplicas kind r.blocks .replicasUnderConstruction
    return { r with replicasUnderConstruction := found }
  | .registers kind registers => return { r with registers := ← lockRegisters kind registers }

-- Takes all locks of a request set, category by category.
def acquire (requests : RequestSet) : Action Resolved := do
  ofExcept requests.validate
  requests.toList.foldlM acquireOne .empty

end Action

end NamespaceService
