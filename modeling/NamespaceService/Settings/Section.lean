import NamespaceService.Json.Record
import NamespaceService.Log

namespace NamespaceService.Settings

structure Format (V : Type) where
  text? : V → Option String
  -- A number without sign, written as a whole number.
  nat? : V → Option Nat
  bool? : V → Option Bool
  items? : V → Option (List V)
  -- The value, or nothing where it is left out.
  present? : V → Option (Option V)

namespace Format

variable {V : Type} (format : Format V)

def word32? (v : V) : Option UInt32 := do
  let n ← format.nat? v
  if h : n < UInt32.size then some (UInt32.ofNatLT n h) else none

def word64? (v : V) : Option UInt64 := do
  let n ← format.nat? v
  if h : n < UInt64.size then some (UInt64.ofNatLT n h) else none

def texts? (v : V) : Option (List String) := do
  (← format.items? v).mapM format.text?

def optional? {α : Type} (read : V → Option α) (v : V) : Option (Option α) := do
  match ← format.present? v with
  | some v => return some (← read v)
  | none => return none

end Format

def json : Format Json where
  text? := Json.text?
  nat? := Json.nat?
  bool? := Json.bool?
  items? := Json.items?
  present? v := some (if v.isNull then none else some v)

-- The fields of a section. It is whole if nothing that follows them is wrong. Fields that are not
-- written keep their defaults, unknown ones are skipped, and none may be written twice.
structure Section (V : Type) where
  entries : List (String × V)
  whole : Bool
deriving Inhabited

namespace Section

variable {V : Type}

-- A section written as a list of values, which belong to `fields` in order.
def ofItems (fields : List String) (items : List V) (whole : Bool) : Section V where
  entries := fields.zip items
  whole := whole && items.length ≤ fields.length

def unreadable : Section V where
  entries := []
  whole := false

def readableKeys : List (String × Json) → List (String × Json)
  | [] => []
  | (key, value) :: members =>
    match Json.readLiteral? key with
    | some key => (key, value) :: readableKeys members
    | none => []

def ofJson (fields : List String) (document : Json.Document) : Section Json :=
  match document.value with
  | .object members =>
    let entries := readableKeys members
    ⟨entries, document.complete && entries.length = members.length⟩
  | .array items => ofItems fields items document.complete
  | _ => unreadable

-- What one field makes of settings so far, and what it has logged.
abbrev Setter (V C : Type) := String → V → C → Option C × List LogLine

def readFrom {C : Type} (fields : List String) (set : Setter V C) :
    (seen : List String) → List (String × V) → C → Option C × List LogLine
  | _, [], c => (some c, [])
  | seen, (field, value) :: rest, c =>
    if field ∉ fields then readFrom fields set seen rest c
    else if field ∈ seen then (none, [])
    else match set field value c with
      | (none, log) => (none, log)
      | (some c, log) =>
        let (result, more) := readFrom fields set (field :: seen) rest c
        (result, log ++ more)

-- Reads the fields over the defaults. Fields are read before anything behind them is found wrong.
def read {C : Type} (s : Section V) (fields : List String) (set : Setter V C) (defaults : C) :
    Option C × List LogLine :=
  let (result, log) := readFrom fields set [] s.entries defaults
  (if s.whole then result else none, log)

end Section

end NamespaceService.Settings
