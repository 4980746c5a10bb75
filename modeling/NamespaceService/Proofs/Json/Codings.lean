import NamespaceService.Proofs.Row.Encoding
import NamespaceService.Proofs.Settings.Encoding

namespace NamespaceService

namespace Json

-- How values are written, and read from a document.
structure Coding (α : Type) where
  write : α → Json
  read? : Document → Option α

namespace Coding

variable {α : Type}

-- A document is read if nothing is wrong with it.
def ofReader (write : α → Json) (read? : Json → Option α) : Coding α where
  write := write
  read? document := if document.complete then read? document.value else none

section

variable (coding : Coding α)

def encode (a : α) : String :=
  (coding.write a).print

def decode? (text : String) : Option α :=
  coding.read? (.read text)

-- The text that is written of what a text reads as.
def canonical? (text : String) : Option String :=
  (coding.decode? text).map coding.encode

-- Values are read back, a text and its canonical text read as the same value, and two texts have
-- the same canonical text only if they read alike.
structure Lawful : Prop where
  decode?_encode (a : α) : coding.decode? (coding.encode a) = some a
  decode?_canonical? (text : String) :
    (coding.canonical? text).bind coding.decode? = coding.decode? text
  canonical?_canonical? (text : String) :
    (coding.canonical? text).bind coding.canonical? = coding.canonical? text
  canonical?_inj (text text' : String) :
    coding.canonical? text = coding.canonical? text' ↔ coding.decode? text = coding.decode? text'

-- A list reads as the section of the first fields, and a section with fields left out as the one
-- with their defaults written behind it.
structure ReadsSections (fields : List String) (defaults : List (String × Json)) : Prop where
  list (items : List Json) (complete : Bool) : coding.read? ⟨.array items, complete⟩ =
    if items.length ≤ fields.length then coding.read? ⟨.record (fields.zip items), complete⟩ else none
  filled (members : List (String × Json)) (complete : Bool) :
    coding.read? ⟨.object members, complete⟩ =
      coding.read? ⟨.object (members ++ Settings.Schema.missing defaults members), complete⟩

end

variable {coding : Coding α}

theorem lawful_of_read? (hwritten : ∀ a, Written (coding.write a))
    (hread : ∀ a, coding.read? ⟨coding.write a, true⟩ = some a) : coding.Lawful := by
  have hencode (a : α) : coding.decode? (coding.encode a) = some a := by
    rw [decode?, encode, read_print (hwritten a), hread]
  have hcanonical (text : String) :
      (coding.canonical? text).bind coding.decode? = coding.decode? text := by
    rw [canonical?]
    cases coding.decode? text
    case none => rfl
    case some a => exact hencode a
  constructor
  case decode?_encode => exact hencode
  case decode?_canonical? => exact hcanonical
  case canonical?_canonical? =>
    have hmap text := congrArg (Option.map coding.encode) (hcanonical text)
    exact fun text => Option.map_bind.symm.trans (hmap text)
  case canonical?_inj =>
    refine fun text text' => ⟨fun h => ?_, congrArg (Option.map coding.encode)⟩
    rw [← hcanonical text, h, hcanonical text']

theorem lawful_ofReader {write : α → Json} {read? : Json → Option α} (h : Rereads write read?) :
    (ofReader write read?).Lawful :=
  lawful_of_read? h.written h.read?_write

end Coding

end Json

open Json

def Row.coding : Coding Row :=
  .ofReader toJson ofJson?

def Key.coding : Coding Key :=
  .ofReader toJson ofJson?

def Node.coding : Coding Node :=
  .ofReader toJson ofJson?

def Block.coding : Coding Block :=
  .ofReader toJson ofJson?

def Lease.coding : Coding Lease :=
  .ofReader toJson ofJson?

def Replica.coding : Coding Replica :=
  .ofReader toJson ofJson?

def Register.coding : Coding Register :=
  .ofReader toJson ofJson?

def RegisterValue.coding : Coding RegisterValue :=
  .ofReader toJson ofJson?

def TransactionConfig.coding : Coding TransactionConfig where
  write := toJson
  read? := ofJson?

def SelectorConfig.coding : Coding SelectorConfig where
  write := toJson
  read? document := (ofJson? document).1

theorem TransactionConfig.readsSections : coding.ReadsSections fields (entries {}) where
  list := Settings.Schema.ofJson?_array isHeader_fields
  filled _ _ := (Settings.Schema.ofJson?_filled (hasDefaults {}) isHeader_fields rfl).symm

theorem SelectorConfig.readsSections : coding.ReadsSections fields (entries {}) where
  list := Settings.Schema.ofJson?_array isHeader_fields
  filled _ _ := (Settings.Schema.ofJson?_filled (hasDefaults {}) isHeader_fields rfl).symm

-- What a form other than the written one reads as, for every content: lists for records, alone and in
-- a row; paths of a lease in any order and more than once; fields of settings that are left out;
-- policies by any name, and which policy a name means.
theorem Json.codings_laws :
    (Row.coding.Lawful ∧ Key.coding.Lawful ∧ Node.coding.Lawful ∧ Block.coding.Lawful ∧
      Lease.coding.Lawful ∧ Replica.coding.Lawful ∧ Register.coding.Lawful ∧
      RegisterValue.coding.Lawful ∧ TransactionConfig.coding.Lawful ∧
      SelectorConfig.coding.Lawful) ∧
    (ReadsLists Node.fields Node.ofJson? ∧ ReadsLists Block.fields Block.ofJson? ∧
      ReadsLists Lease.fields Lease.ofJson? ∧ ReadsLists Replica.fields Replica.ofJson? ∧
      ReadsLists RegisterValue.fields RegisterValue.ofJson?) ∧
    (∀ content,
      Row.ofJson? (.variant "Node" content) = (Node.ofJson? content).map .node ∧
      Row.ofJson? (.variant "Block" content) = (Block.ofJson? content).map .block ∧
      Row.ofJson? (.variant "Lease" content) = (Lease.ofJson? content).map .lease ∧
      Row.ofJson? (.variant "Replica" content) = (Replica.ofJson? content).map .replica ∧
      Row.ofJson? (.variant "Variable" content) = (RegisterValue.ofJson? content).map .register) ∧
    (∀ holder paths, Lease.ofJson? (Lease.withPaths holder paths) =
      (paths.mapM text?).bind fun texts => Lease.ofJson?
        (Lease.withPaths holder ((SortedBy.ofList texts : PathSet).toList.map .ofText))) ∧
    (∀ texts texts' : List String, (SortedBy.ofList texts : PathSet) = .ofList texts' ↔
      ∀ text, text ∈ texts ↔ text ∈ texts') ∧
    TransactionConfig.coding.ReadsSections TransactionConfig.fields (TransactionConfig.entries {}) ∧
    SelectorConfig.coding.ReadsSections SelectorConfig.fields (SelectorConfig.entries {}) ∧
    (∀ front value back complete,
      SelectorConfig.coding.read? ⟨.object (front ++ ("policy", value) :: back), complete⟩ =
        SelectorConfig.coding.read?
          ⟨.object (front ++ ("policy", SelectorConfig.namePolicy value) :: back), complete⟩) ∧
    ∀ (name : String) (policy : Policy),
      SelectorConfig.namePolicy (.ofText name) = .ofText policy.name ↔
        Policy.Alike name policy.name ∨
          policy = .roundRobin ∧ ∀ other : Policy, ¬Policy.Alike name other.name := by
  refine ⟨⟨?_, ?_, ?_, ?_, ?_, ?_, ?_, ?_, ?_, ?_⟩, ?lists, ?rows, Lease.ofJson?_sortPaths,
    fun _ _ => Lease.ofList_eq_iff, TransactionConfig.readsSections, SelectorConfig.readsSections,
    ?policies, fun _ _ => SelectorConfig.namePolicy_eq_iff⟩
  · exact Coding.lawful_ofReader Row.rereads
  · exact Coding.lawful_ofReader Key.rereads
  · exact Coding.lawful_ofReader Node.rereads
  · exact Coding.lawful_ofReader Block.rereads
  · exact Coding.lawful_ofReader Lease.rereads
  · exact Coding.lawful_ofReader Replica.rereads
  · exact Coding.lawful_ofReader Register.rereads
  · exact Coding.lawful_ofReader RegisterValue.rereads
  · exact Coding.lawful_of_read? TransactionConfig.written_toJson TransactionConfig.ofJson?_toJson
  · exact Coding.lawful_of_read? SelectorConfig.written_toJson SelectorConfig.ofJson?_toJson
  case lists =>
    exact ⟨Node.readsLists, Block.readsLists, Lease.readsLists, Replica.readsLists,
      RegisterValue.readsLists⟩
  case rows =>
    exact fun content => ⟨Row.ofJson?_node content, Row.ofJson?_block content,
      Row.ofJson?_lease content, Row.ofJson?_replica content, Row.ofJson?_register content⟩
  case policies =>
    exact fun front value back => Settings.Schema.ofJson?_replace (by decide)
      (SelectorConfig.set_namePolicy value) front back

example : Lease.coding.canonical? "[\"c\",[\"/b\",\"/a\",\"/b\"]]" =
    some "\x7b\"holder\":\"c\",\"paths\":[\"/a\",\"/b\"]\x7d" := by
  decide +kernel

end NamespaceService
