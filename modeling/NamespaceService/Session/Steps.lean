import NamespaceService.Transaction.Acquire

namespace NamespaceService.Session

structure PathReport where
  path : String
  chain : Option (List NodeId)
  full : Bool
  target : Option Node
  parent : Option NodeId
deriving DecidableEq

structure ResolvedReport where
  paths : List PathReport
  chain : List NodeId
  children : List (NodeId × List NodeId)
  blocks : List Block
  leases : List Lease
  replicas : List Replica
  replicasUnderConstruction : List Replica
  registers : List RegisterValue
  counters : List (Option UInt64)
deriving DecidableEq

namespace ResolvedReport

def ofPath (r : Resolved) (path : String) : PathReport where
  path := path
  chain := (r.chainOf? path).map (·.map Node.id)
  full := r.isFull path
  target := r.target? path
  parent := (r.parent? path).map Node.id

-- Reports on the given paths, each once and in order, and on everything else that was found.
def ofResolved (r : Resolved) (paths : List String) : ResolvedReport where
  paths := (SortedBy.ofList paths : PathSet).toList.map (ofPath r)
  chain := r.chain.map Node.id
  children := r.children.toList.map fun (dir, nodes) => (dir, nodes.map Node.id)
  blocks := r.blocks
  leases := r.leases
  replicas := r.replicas
  replicasUnderConstruction := r.replicasUnderConstruction
  registers := r.registers
  counters := Store.counters.map r.registerValue?

def pathsOf (requests : List LockRequest) : List String :=
  requests.flatMap fun
    | .nodes _ (.paths paths _) => paths
    | _ => []

end ResolvedReport

inductive ContextStep
  | lockFind (kind : LockKind) (finder : Finder)
  | lockNode (kind : LockKind) (finder : Finder)
  | lockList (kind : LockKind) (finder : Finder)
  | probe (finder : Finder)
  | find (finder : Finder)
  | findNode (finder : Finder)
  | findList (finder : Finder)
  | upsert (row : Row)
  | remove (key : Key)
  | endLockPhase
  | changes
  | commit
  | rollback
  -- Takes locks, and reports on the requested paths and on those in `ask`.
  | acquire (requests : List LockRequest) (ask : List String)
  | lockPath (mode : NodeMode) (path : String)
  | lockPaths (mode : NodeMode) (paths : List String)
  | lockChain (mode : NodeMode) (chain : List Node)

inductive Reply
  | done
  | row (row : Option Row)
  | rows (rows : List Row)
  | node (node : Option Node)
  | nodes (nodes : List Node)
  | changes (changes : List Change)
  | chains (chains : List (String × List NodeId))
  | resolved (report : ResolvedReport)
deriving DecidableEq

def ContextStep.run : ContextStep → Action Reply
  | .lockFind kind finder => Reply.row <$> Action.lockFind kind finder
  | .lockNode kind finder => Reply.node <$> Action.lockNode kind finder
  | .lockList kind finder => Reply.rows <$> Action.lockList kind finder
  | .probe finder => Reply.row <$> Action.probe finder
  | .find finder => Reply.row <$> Action.find finder
  | .findNode finder => Reply.node <$> Action.findNode finder
  | .findList finder => Reply.rows <$> Action.findList finder
  | .upsert row => do Action.upsert row; return .done
  | .remove key => do Action.remove key; return .done
  | .endLockPhase => do Action.endLockPhase; return .done
  | .changes => do return .changes (← get).changes
  | .commit => do Action.commit; return .done
  | .rollback => do Action.rollback; return .done
  | .acquire requests ask => do
    let resolved ← Action.acquire (← Action.ofExcept (RequestSet.ofRequests requests))
    return .resolved (.ofResolved resolved (ResolvedReport.pathsOf requests ++ ask))
  | .lockPath mode path => Reply.nodes <$> Action.lockPath mode path
  | .lockPaths mode paths => do
    let chains ← Action.lockPaths mode paths
    return .chains (chains.toList.map fun (path, nodes) => (path, nodes.map Node.id))
  | .lockChain mode chain => Reply.nodes <$> Action.lockChain mode chain

-- Steps of a transaction without a context: it looks rows up at the kind that was set last.
inductive BareStep
  | setKind (kind : LockKind)
  | find (finder : Finder)
  | findList (finder : Finder)
  | probe (finder : Finder)
  | commit (changes : List Change)
  | rollback

structure BareTransaction where
  tx : TxId
  kind : LockKind := .readCommitted
deriving DecidableEq

def BareStep.run (t : BareTransaction) : BareStep → Program (Except Fault Reply × BareTransaction)
  | .setKind kind => return (.ok .done, { t with kind })
  | .find finder => do
    let found : Except Fault (Option Row) ← Program.call (.find t.tx t.kind finder)
    return (found.map .row, t)
  | .findList finder => do
    let found : Except Fault (List Row) ← Program.call (.findList t.tx t.kind finder)
    return (found.map .rows, t)
  | .probe finder => do return ((← Program.probe finder t.tx).map .row, t)
  | .commit changes => do return ((← Program.commit t.tx 0 changes).map fun _ => .done, t)
  | .rollback => do return ((← Program.rollback t.tx).map fun _ => .done, t)

end NamespaceService.Session
