import NamespaceService.Json.Parser

namespace NamespaceService.Json

def readLiteral? (literal : String) : Option String :=
  (unescape literal.toList).map String.ofList

-- The members of an object under the keys they stand for.
def members? : Json → Option (List (String × Json))
  | .object members => members.mapM fun (key, value) => (readLiteral? key).map (·, value)
  | _ => none

-- No field is given twice.
def isUnambiguous {α : Type} (fields : List String) (members : List (String × α)) : Bool :=
  fields.all fun field => (members.filter (·.1 = field)).length ≤ 1

-- The values of the fields, in the order of `fields`. A record is an object with one member for
-- each field, other members being skipped, or a list of the fields in order.
def fields? (fields : List String) (json : Json) : Option (List Json) :=
  match json with
  | .array items => if items.length = fields.length then some items else none
  | json => do
    let members ← json.members?
    if isUnambiguous fields members then fields.mapM (members.lookup ·) else none

-- A variant is its bare name, or an object with the name as its only key and the content under it.
def variant? : Json → Option (String × Option Json)
  | .object [(key, content)] => (readLiteral? key).map (·, some content)
  | .string literal => (readLiteral? literal).map (·, none)
  | _ => none

-- A variant without content may be written with a null.
def noContent? : Option Json → Option Unit
  | none | some .null => some ()
  | _ => none

def variant (name : String) (content : Json) : Json :=
  .object [(name, content)]

def word64? (json : Json) : Option UInt64 := do
  let n ← json.nat?
  if h : n < UInt64.size then some (UInt64.ofNatLT n h) else none

def word32? (json : Json) : Option UInt32 := do
  let n ← json.nat?
  if h : n < UInt32.size then some (UInt32.ofNatLT n h) else none

def word16? (json : Json) : Option UInt16 := do
  let n ← json.nat?
  if h : n < UInt16.size then some (UInt16.ofNatLT n h) else none

def ofWord64 (n : UInt64) : Json :=
  ofNat n.toNat

def listOf? {α : Type} (read : Json → Option α) (json : Json) : Option (List α) :=
  json.items?.bind (·.mapM read)

def ofList {α : Type} (write : α → Json) (items : List α) : Json :=
  .array (items.map write)

def ofOption {α : Type} (write : α → Json) : Option α → Json
  | some a => write a
  | none => .null

end NamespaceService.Json
