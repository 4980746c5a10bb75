import NamespaceService.Proofs.Json.Records
import NamespaceService.Proofs.Transaction.Positions
import NamespaceService.Row.Encoding

namespace NamespaceService

open Json

theorem NodeId.rereads : Rereads NodeId.toJson NodeId.ofJson? where
  written id := .number id.value.toNat
  read?_write id := by rw [ofJson?, toJson, word64?_ofWord64]; rfl

theorem BlockId.rereads : Rereads BlockId.toJson BlockId.ofJson? where
  written id := .number id.value.toNat
  read?_write id := by rw [ofJson?, toJson, word64?_ofWord64]; rfl

theorem Register.rereads : Rereads Register.toJson Register.ofJson? where
  written register := by
    cases register
    case blockTokenKey number => exact .variant (by decide) (.number _)
    all_goals exact .text _
  read?_write register := by
    cases register
    case blockTokenKey number =>
      rw [toJson, ofJson?, variant?_variant (by decide)]
      simp [word32?_ofNat]
    all_goals
      rw [toJson, ofJson?, variant?_ofText]
      rfl

namespace Key

theorem rereads_pair (id : BlockId) (storage : String) :
    Written (ofPair id storage) ∧ pair? (ofPair id storage) = some (id, storage) := by
  constructor
  · refine .array ?_
    simp [BlockId.rereads.written, Written.text]
  · simp [ofPair, pair?, items?, BlockId.rereads.read?_write]

theorem rereads : Rereads toJson ofJson? where
  written key := by
    cases key
    case node id => exact .variant (by decide) (NodeId.rereads.written id)
    case block id => exact .variant (by decide) (BlockId.rereads.written id)
    case lease holder => exact .variant (by decide) (.text holder)
    case replica id storage => exact .variant (by decide) (rereads_pair id storage).1
    case replicaUnderConstruction id storage =>
      exact .variant (by decide) (rereads_pair id storage).1
    case register name => exact .variant (by decide) (Register.rereads.written name)
  read?_write key := by
    cases key
    all_goals rw [toJson, ofJson?, variant?_variant (by decide)]
    case node id => simp [NodeId.rereads.read?_write]
    case block id => simp [BlockId.rereads.read?_write]
    case lease holder => simp
    case replica id storage => simp [rereads_pair]
    case replicaUnderConstruction id storage => simp [rereads_pair]
    case register name => simp [Register.rereads.read?_write]

end Key

theorem NodeKind.rereads : Rereads NodeKind.toJson NodeKind.ofJson? where
  written kind := .text kind.name
  read?_write kind := by
    rw [toJson, ofJson?, variant?_ofText]
    cases kind <;> rfl

namespace Node

def fields : List String :=
  ["id", "parent_id", "name", "kind", "blocks"]

theorem isHeader_fields : IsHeader fields := by decide

theorem rereads : Rereads toJson ofJson? := by
  refine .record isHeader_fields (fun _ => rfl) (fun n => ?_) fun n => ?_
  · simp [NodeId.rereads.written, NodeKind.rereads.written, BlockId.rereads.list.written,
      Written.text]
  · simp [NodeId.rereads.read?_write, NodeKind.rereads.read?_write, BlockId.rereads.list.read?_write]

theorem readsLists : ReadsLists fields ofJson? :=
  readsLists_of_fields? isHeader_fields _

end Node

namespace Block

def fields : List String :=
  ["id", "owner", "generation_stamp", "num_bytes", "placeholder"]

theorem isHeader_fields : IsHeader fields := by decide

theorem rereads : Rereads toJson ofJson? := by
  refine .record isHeader_fields (fun _ => rfl) (fun b => ?_) fun b => ?_
  · simp [NodeId.rereads.written, BlockId.rereads.written, rereads_word64.written, Written.bool]
  · simp [NodeId.rereads.read?_write, BlockId.rereads.read?_write, rereads_word64.read?_write, bool?]

theorem readsLists : ReadsLists fields ofJson? :=
  readsLists_of_fields? isHeader_fields _

end Block

namespace Lease

variable {texts texts' : List String}

def fields : List String :=
  ["holder", "paths"]

theorem isHeader_fields : IsHeader fields := by decide

-- A lease with any list of paths.
def withPaths (holder : Json) (paths : List Json) : Json :=
  .record [("holder", holder), ("paths", .array paths)]

theorem ofJson?_withPaths (holder : Json) (paths : List Json) :
    ofJson? (withPaths holder paths) = holder.text?.bind fun holder =>
      (paths.mapM text?).map fun texts => { holder, paths := .ofList texts } := by
  have hfields : (withPaths holder paths).fields? fields = some _ :=
    fields?_record isHeader_fields rfl
  rw [ofJson?, ← fields, hfields]
  cases hpaths : paths.mapM text? <;> cases hholder : holder.text? <;>
    simp [hholder, listOf?, items?, hpaths]

theorem ofList_toList (paths : PathSet) : (SortedBy.ofList paths.toList : PathSet) = paths :=
  SortedBy.ext_of_mem fun _ => SortedBy.mem_ofList_iff

theorem ofList_eq_iff : (SortedBy.ofList texts : PathSet) = .ofList texts' ↔
    ∀ text, text ∈ texts ↔ text ∈ texts' := by
  constructor
  case mp =>
    intro heq text
    rw [← SortedBy.mem_ofList_iff, heq, SortedBy.mem_ofList_iff]
  case mpr =>
    intro h
    refine SortedBy.ext_of_mem fun text => ?_
    rw [SortedBy.mem_ofList_iff, SortedBy.mem_ofList_iff, h]

-- Paths are read as if every one had been written once and in order.
theorem ofJson?_sortPaths (holder : Json) (paths : List Json) :
    ofJson? (withPaths holder paths) = (paths.mapM text?).bind fun texts =>
      ofJson? (withPaths holder ((SortedBy.ofList texts : PathSet).toList.map .ofText)) := by
  rw [ofJson?_withPaths]
  cases paths.mapM text?
  case none => cases holder.text? <;> rfl
  case some texts =>
    have hread := rereads_text.list.read?_write (SortedBy.ofList texts : PathSet).toList
    rw [Option.bind_some, ofJson?_withPaths, (show List.mapM text? _ = _ from hread)]
    simp only [Option.map_some, ofList_toList]

theorem rereads : Rereads toJson ofJson? := by
  refine .record isHeader_fields (fun _ => rfl) (fun l => ?_) fun l => ?_
  · simp [rereads_text.list.written, Written.text]
  · simp [rereads_text.list.read?_write, ofList_toList]

theorem readsLists : ReadsLists fields ofJson? :=
  readsLists_of_fields? isHeader_fields _

end Lease

namespace Replica

def fields : List String :=
  ["block", "storage_id", "under_construction"]

theorem isHeader_fields : IsHeader fields := by decide

theorem rereads : Rereads toJson ofJson? := by
  refine .record isHeader_fields (fun _ => rfl) (fun r => ?_) fun r => ?_
  · simp [BlockId.rereads.written, Written.text, Written.bool]
  · simp [BlockId.rereads.read?_write, bool?]

theorem readsLists : ReadsLists fields ofJson? :=
  readsLists_of_fields? isHeader_fields _

end Replica

namespace RegisterValue

def fields : List String :=
  ["variable", "value"]

theorem isHeader_fields : IsHeader fields := by decide

theorem rereads : Rereads toJson ofJson? := by
  refine .record isHeader_fields (fun _ => rfl) (fun v => ?_) fun v => ?_
  · simp [Register.rereads.written, rereads_word64.written]
  · simp [Register.rereads.read?_write, rereads_word64.read?_write]

theorem readsLists : ReadsLists fields ofJson? :=
  readsLists_of_fields? isHeader_fields _

end RegisterValue

namespace Row

-- A row is read by the rules for its content.
theorem ofJson?_node (content : Json) :
    ofJson? (.variant "Node" content) = (Node.ofJson? content).map node := by
  rw [ofJson?, variant?_variant (by decide)]
  rfl

theorem ofJson?_block (content : Json) :
    ofJson? (.variant "Block" content) = (Block.ofJson? content).map block := by
  rw [ofJson?, variant?_variant (by decide)]
  rfl

theorem ofJson?_lease (content : Json) :
    ofJson? (.variant "Lease" content) = (Lease.ofJson? content).map lease := by
  rw [ofJson?, variant?_variant (by decide)]
  rfl

theorem ofJson?_replica (content : Json) :
    ofJson? (.variant "Replica" content) = (Replica.ofJson? content).map replica := by
  rw [ofJson?, variant?_variant (by decide)]
  rfl

theorem ofJson?_register (content : Json) :
    ofJson? (.variant "Variable" content) = (RegisterValue.ofJson? content).map register := by
  rw [ofJson?, variant?_variant (by decide)]
  rfl

theorem rereads : Rereads toJson ofJson? where
  written row := by
    cases row
    case node n => exact .variant (by decide) (Node.rereads.written n)
    case block b => exact .variant (by decide) (Block.rereads.written b)
    case lease l => exact .variant (by decide) (Lease.rereads.written l)
    case replica r => exact .variant (by decide) (Replica.rereads.written r)
    case register v => exact .variant (by decide) (RegisterValue.rereads.written v)
  read?_write row := by
    cases row
    case node n => rw [toJson, ofJson?_node, Node.rereads.read?_write, Option.map_some]
    case block b => rw [toJson, ofJson?_block, Block.rereads.read?_write, Option.map_some]
    case lease l => rw [toJson, ofJson?_lease, Lease.rereads.read?_write, Option.map_some]
    case replica r => rw [toJson, ofJson?_replica, Replica.rereads.read?_write, Option.map_some]
    case register v =>
      rw [toJson, ofJson?_register, RegisterValue.rereads.read?_write, Option.map_some]

end Row

end NamespaceService
