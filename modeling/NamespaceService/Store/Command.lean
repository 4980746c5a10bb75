import NamespaceService.Store.Direct

namespace NamespaceService.Store

inductive Command
  | ensure (path : String) (kind : NodeKind)
  | attachBlock (path : String) (number : UInt64)
  | insert (row : Row)
  | get (key : Key)
  | allocate
  | nodeAt (path : String)
  | inject (operation : Operation) (fault : Fault)
  | acquisitions
  | clearEvents
  -- The nodes and blocks numbered up to `upTo`, the named leases, and the counters.
  | dump (upTo : UInt64) (leases : List String)

inductive Reply
  | done
  | node (node : Option Node)
  | block (block : Option Block)
  | row (row : Option Row)
  | id (id : NodeId)
  | acquisitions (lookups : List (LockKind × Finder))
  | rows (rows : List Row)

def counters : List Register :=
  [.generationStamp, .nodeIdCounter, .blockIdCounter]

def dump (s : Store) (upTo : UInt64) (leases : List String) : List Row :=
  let nodes := s.rows.toList.filter fun
    | .node n => n.id.value ≤ upTo
    | _ => false
  let blocks := s.rows.toList.filter fun
    | .block b => b.id.value ≤ upTo
    | _ => false
  nodes ++ blocks ++ leases.filterMap (s.get? <| .lease ·) ++
    counters.filterMap (s.get? <| .register ·)

-- Without a reply a counter would have left its word.
def run (s : Store) : Command → Option Reply × Store
  | .ensure path kind => let (node, s) := s.ensure path kind; (node.map .node, s)
  | .attachBlock path number => let (block, s) := s.attachBlock path number; (block.map .block, s)
  | .insert row => (some .done, s.insert row)
  | .get key => (some (.row (s.get? key)), s)
  | .allocate =>
    match s.allocate with
    | some (id, s) => (some (.id id), s)
    | none => (none, s)
  | .nodeAt path => (some (.node (s.nodeAt? path)), s)
  | .inject operation fault => (some .done, s.inject operation fault)
  | .acquisitions => (some (.acquisitions s.acquisitions), s)
  | .clearEvents => (some .done, s.clearEvents)
  | .dump upTo leases => (some (.rows (s.dump upTo leases)), s)

end NamespaceService.Store
