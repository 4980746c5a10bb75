import NamespaceService.Order.SortedBy
import NamespaceService.Row.Key

namespace NamespaceService

inductive NodeKind
  | directory
  | file
  | symlink
deriving DecidableEq, Inhabited

-- The root is its own parent; directories list no blocks.
@[ext]
structure Node where
  id : NodeId
  parent : NodeId
  name : String
  kind : NodeKind
  blocks : List BlockId
deriving DecidableEq, Inhabited

namespace Node

def root : Node where
  id := .root
  parent := .root
  name := ""
  kind := .directory
  blocks := []

def isRoot (n : Node) : Bool :=
  n.id = .root

def isDirectory (n : Node) : Bool :=
  n.kind = .directory

def isFile (n : Node) : Bool :=
  n.kind = .file

-- The node is an entry of the directory `dir`. The root is an entry of no directory.
def isEntryOf (n : Node) (dir : NodeId) : Bool :=
  !n.isRoot && n.parent = dir

end Node

@[ext]
structure Block where
  id : BlockId
  owner : NodeId
  generationStamp : UInt64
  numBytes : UInt64
  placeholder : Bool
deriving DecidableEq, Inhabited

namespace Block

def fresh (id : BlockId) (owner : NodeId) (stamp : UInt64) : Block where
  id := id
  owner := owner
  generationStamp := stamp
  numBytes := 0
  placeholder := false

-- Stands for a requested block that the store does not hold.
def absent (id : BlockId) (owner : NodeId) : Block where
  id := id
  owner := owner
  generationStamp := 0
  numBytes := 0
  placeholder := true

end Block

-- A set of paths, listed in byte order.
abbrev PathSet := SortedBy (id : String → String)

@[ext]
structure Lease where
  holder : String
  paths : PathSet
deriving DecidableEq, Inhabited

namespace Lease

def new (holder : String) : Lease where
  holder := holder
  paths := .empty

def withPath (lease : Lease) (path : String) : Lease :=
  { lease with paths := lease.paths.insert path }

def covers (lease : Lease) (path : String) : Bool :=
  lease.paths.contains path

end Lease

-- A copy of a block on one storage, finished or still being written.
@[ext]
structure Replica where
  block : BlockId
  storage : String
  underConstruction : Bool
deriving DecidableEq, Inhabited

@[ext]
structure RegisterValue where
  register : Register
  value : UInt64
deriving DecidableEq, Inhabited

inductive Row
  | node (node : Node)
  | block (block : Block)
  | lease (lease : Lease)
  | replica (replica : Replica)
  | register (entry : RegisterValue)
deriving DecidableEq, Inhabited

namespace Row

def key : Row → Key
  | .node n => .node n.id
  | .block b => .block b.id
  | .lease l => .lease l.holder
  | .replica r =>
    if r.underConstruction then .replicaUnderConstruction r.block r.storage
    else .replica r.block r.storage
  | .register v => .register v.register

-- The row whose write lock guards creating this one; leases, registers and the root have none.
def owner? : Row → Option Key
  | .node n => if n.isRoot then none else some (.node n.parent)
  | .block b => some (.node b.owner)
  | .replica r => some (.block r.block)
  | .lease _ | .register _ => none

def node? : Row → Option Node
  | .node n => some n
  | _ => none

def block? : Row → Option Block
  | .block b => some b
  | _ => none

def lease? : Row → Option Lease
  | .lease l => some l
  | _ => none

def replica? : Row → Option Replica
  | .replica r => some r
  | _ => none

def register? : Row → Option RegisterValue
  | .register v => some v
  | _ => none

end Row

end NamespaceService
