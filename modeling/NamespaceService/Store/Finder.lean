import NamespaceService.Row.Basic

namespace NamespaceService

-- Names the key of one row, or describes a row by a name under a parent, or describes a list of
-- rows.
inductive Finder
  | node (id : NodeId)
  | nodeNamed (parent : NodeId) (name : String)
  | children (dir : NodeId)
  | block (id : BlockId)
  | blocksOf (node : NodeId)
  | lease (holder : String)
  | replicas (block : BlockId)
  | replicasUnderConstruction (block : BlockId)
  | register (register : Register)
deriving DecidableEq, Inhabited

namespace Finder

-- The key of the one row that is looked up, where the finder alone says it.
def key? : Finder → Option Key
  | .node id => some (.node id)
  | .block id => some (.block id)
  | .lease holder => some (.lease holder)
  | .register name => some (.register name)
  | .nodeNamed .. | .children _ | .blocksOf _ | .replicas _ | .replicasUnderConstruction _ => none

def text : Finder → String
  | .node id => s!"node by id {id.text}"
  | .nodeNamed parent name => s!"node '{name}' under {parent.text}"
  | .children dir => s!"children of node {dir.text}"
  | .block id => s!"block {id.text}"
  | .blocksOf owner => s!"blocks of node {owner.text}"
  | .lease holder => s!"lease of {holder}"
  | .replicas id => s!"replicas of {id.text}"
  | .replicasUnderConstruction id => s!"under-construction replicas of {id.text}"
  | .register name => s!"variable {name.text}"

def selects : Finder → Row → Bool
  | .nodeNamed parent name, .node n => n.isEntryOf parent && n.name = name
  | .nodeNamed .., _ => false
  | finder, row => finder.key? = some row.key

def lists : Finder → Row → Bool
  | .children dir, .node n => n.isEntryOf dir
  | .blocksOf owner, .block b => b.owner = owner
  | .replicas id, .replica r => r.block = id && !r.underConstruction
  | .replicasUnderConstruction id, .replica r => r.block = id && r.underConstruction
  | _, _ => false

end Finder

namespace Row

def finders : Row → List Finder
  | .node n => if n.isRoot then [.node n.id] else [.node n.id, .nodeNamed n.parent n.name]
  | .block b => [.block b.id]
  | .lease l => [.lease l.holder]
  | .replica _ => []
  | .register v => [.register v.register]

def listFinder? : Row → Option Finder
  | .node n => if n.isRoot then none else some (.children n.parent)
  | .block b => some (.blocksOf b.owner)
  | .replica r =>
    if r.underConstruction then some (.replicasUnderConstruction r.block)
    else some (.replicas r.block)
  | .lease _ | .register _ => none

end Row

inductive Change
  | upsert (row : Row)
  | remove (key : Key)
deriving DecidableEq, Inhabited

namespace Change

def key : Change → Key
  | .upsert row => row.key
  | .remove key => key

end Change

end NamespaceService
