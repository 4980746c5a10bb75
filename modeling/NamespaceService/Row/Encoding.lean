import NamespaceService.Json.Record
import NamespaceService.Row.Basic

namespace NamespaceService

namespace NodeId

def toJson (id : NodeId) : Json :=
  .ofWord64 id.value

def ofJson? (json : Json) : Option NodeId :=
  json.word64?.map NodeId.mk

end NodeId

namespace BlockId

def toJson (id : BlockId) : Json :=
  .ofWord64 id.value

def ofJson? (json : Json) : Option BlockId :=
  json.word64?.map BlockId.mk

end BlockId

namespace Register

def toJson : Register → Json
  | .generationStamp => .ofText "GenerationStamp"
  | .nodeIdCounter => .ofText "InodeIdCounter"
  | .blockIdCounter => .ofText "BlockIdCounter"
  | .blockTokenKey number => .variant "BlockTokenKey" (.ofNat number.toNat)

def ofJson? (json : Json) : Option Register := do
  match ← json.variant? with
  | ("GenerationStamp", content) => (Json.noContent? content).map fun _ => generationStamp
  | ("InodeIdCounter", content) => (Json.noContent? content).map fun _ => nodeIdCounter
  | ("BlockIdCounter", content) => (Json.noContent? content).map fun _ => blockIdCounter
  | ("BlockTokenKey", some content) => content.word32?.map blockTokenKey
  | _ => none

end Register

namespace Key

def ofPair (id : BlockId) (storage : String) : Json :=
  .array [id.toJson, .ofText storage]

def pair? (json : Json) : Option (BlockId × String) := do
  let [id, storage] ← json.items? | none
  return (← BlockId.ofJson? id, ← storage.text?)

def toJson : Key → Json
  | .node id => .variant "Node" id.toJson
  | .block id => .variant "Block" id.toJson
  | .lease holder => .variant "Lease" (.ofText holder)
  | .replica id storage => .variant "Replica" (ofPair id storage)
  | .replicaUnderConstruction id storage =>
    .variant "ReplicaUnderConstruction" (ofPair id storage)
  | .register name => .variant "Variable" name.toJson

def ofJson? (json : Json) : Option Key := do
  match ← json.variant? with
  | ("Node", some content) => (NodeId.ofJson? content).map node
  | ("Block", some content) => (BlockId.ofJson? content).map block
  | ("Lease", some content) => content.text?.map lease
  | ("Replica", some content) => (pair? content).map fun (id, storage) => replica id storage
  | ("ReplicaUnderConstruction", some content) =>
    (pair? content).map fun (id, storage) => replicaUnderConstruction id storage
  | ("Variable", some content) => (Register.ofJson? content).map register
  | _ => none

end Key

namespace NodeKind

def name : NodeKind → String
  | directory => "Directory"
  | file => "File"
  | symlink => "Symlink"

def toJson (kind : NodeKind) : Json :=
  .ofText kind.name

def ofJson? (json : Json) : Option NodeKind := do
  match ← json.variant? with
  | ("Directory", content) => (Json.noContent? content).map fun _ => directory
  | ("File", content) => (Json.noContent? content).map fun _ => file
  | ("Symlink", content) => (Json.noContent? content).map fun _ => symlink
  | _ => none

end NodeKind

namespace Node

def toJson (n : Node) : Json :=
  .record [
    ("id", n.id.toJson),
    ("parent_id", n.parent.toJson),
    ("name", .ofText n.name),
    ("kind", n.kind.toJson),
    ("blocks", .ofList BlockId.toJson n.blocks)]

def ofJson? (json : Json) : Option Node := do
  let [id, parent, name, kind, blocks] ←
    json.fields? ["id", "parent_id", "name", "kind", "blocks"] | none
  return {
    id := ← NodeId.ofJson? id
    parent := ← NodeId.ofJson? parent
    name := ← name.text?
    kind := ← NodeKind.ofJson? kind
    blocks := ← blocks.listOf? BlockId.ofJson?
  }

end Node

namespace Block

def toJson (b : Block) : Json :=
  .record [
    ("id", b.id.toJson),
    ("owner", b.owner.toJson),
    ("generation_stamp", .ofWord64 b.generationStamp),
    ("num_bytes", .ofWord64 b.numBytes),
    ("placeholder", .bool b.placeholder)]

def ofJson? (json : Json) : Option Block := do
  let [id, owner, stamp, bytes, placeholder] ←
    json.fields? ["id", "owner", "generation_stamp", "num_bytes", "placeholder"] | none
  return {
    id := ← BlockId.ofJson? id
    owner := ← NodeId.ofJson? owner
    generationStamp := ← stamp.word64?
    numBytes := ← bytes.word64?
    placeholder := ← placeholder.bool?
  }

end Block

namespace Lease

def toJson (l : Lease) : Json :=
  .record [
    ("holder", .ofText l.holder),
    ("paths", .ofList .ofText l.paths.toList)]

def ofJson? (json : Json) : Option Lease := do
  let [holder, paths] ← json.fields? ["holder", "paths"] | none
  return {
    holder := ← holder.text?
    paths := .ofList (← paths.listOf? Json.text?)
  }

end Lease

namespace Replica

def toJson (r : Replica) : Json :=
  .record [
    ("block", r.block.toJson),
    ("storage_id", .ofText r.storage),
    ("under_construction", .bool r.underConstruction)]

def ofJson? (json : Json) : Option Replica := do
  let [block, storage, underConstruction] ←
    json.fields? ["block", "storage_id", "under_construction"] | none
  return {
    block := ← BlockId.ofJson? block
    storage := ← storage.text?
    underConstruction := ← underConstruction.bool?
  }

end Replica

namespace RegisterValue

def toJson (v : RegisterValue) : Json :=
  .record [("variable", v.register.toJson), ("value", .ofWord64 v.value)]

def ofJson? (json : Json) : Option RegisterValue := do
  let [name, value] ← json.fields? ["variable", "value"] | none
  return { register := ← Register.ofJson? name, value := ← value.word64? }

end RegisterValue

namespace Row

def toJson : Row → Json
  | .node n => .variant "Node" n.toJson
  | .block b => .variant "Block" b.toJson
  | .lease l => .variant "Lease" l.toJson
  | .replica r => .variant "Replica" r.toJson
  | .register v => .variant "Variable" v.toJson

def ofJson? (json : Json) : Option Row := do
  match ← json.variant? with
  | ("Node", some content) => (Node.ofJson? content).map node
  | ("Block", some content) => (Block.ofJson? content).map block
  | ("Lease", some content) => (Lease.ofJson? content).map lease
  | ("Replica", some content) => (Replica.ofJson? content).map replica
  | ("Variable", some content) => (RegisterValue.ofJson? content).map register
  | _ => none

end Row

end NamespaceService
