import NamespaceService.Json.Basic

namespace NamespaceService.Json

def isBlank (c : Char) : Bool :=
  c = ' ' || c = '\n' || c = '\t' || c = '\r'

def skipBlank (cs : List Char) : List Char :=
  cs.dropWhile isBlank

-- The literal of a string whose opening quote was read, and what follows the closing one.
def scanString : List Char → Option (List Char × List Char)
  | [] => none
  | '"' :: rest => some ([], rest)
  | '\\' :: 'u' :: a :: b :: c :: d :: rest =>
    match hexUnit? a b c d with
    | some _ => (scanString rest).map fun (s, r) => ('\\' :: 'u' :: a :: b :: c :: d :: s, r)
    | none => none
  | '\\' :: e :: rest =>
    match shortEscape? e with
    | some _ => (scanString rest).map fun (s, r) => ('\\' :: e :: s, r)
    | none => none
  | c :: rest => if c.toNat < 32 then none else (scanString rest).map fun (s, r) => (c :: s, r)

-- At least one digit, and what follows the last.
def scanDigits (cs : List Char) : Option (List Char × List Char) :=
  match cs.takeWhile Char.isDigit with
  | [] => none
  | digits => some (digits, cs.dropWhile Char.isDigit)

-- A leading zero stands alone.
def scanWhole (cs : List Char) : Option (List Char × List Char) :=
  match scanDigits cs with
  | some ('0' :: _ :: _, _) => none
  | result => result

def scanFraction : List Char → Option (List Char × List Char)
  | '.' :: rest => (scanDigits rest).map fun (s, r) => ('.' :: s, r)
  | cs => some ([], cs)

def scanSign : List Char → List Char × List Char
  | '+' :: rest => (['+'], rest)
  | '-' :: rest => (['-'], rest)
  | cs => ([], cs)

def scanExponent : List Char → Option (List Char × List Char)
  | e :: rest =>
    if e = 'e' ∨ e = 'E' then
      let (sign, rest) := scanSign rest
      (scanDigits rest).map fun (s, r) => (e :: sign ++ s, r)
    else some ([], e :: rest)
  | [] => some ([], [])

def scanNumber (cs : List Char) : Option (List Char × List Char) := do
  let (sign, rest) := match cs with
    | '-' :: rest => (['-'], rest)
    | cs => ([], cs)
  let (whole, rest) ← scanWhole rest
  let (fraction, rest) ← scanFraction rest
  let (exponent, rest) ← scanExponent rest
  return (sign ++ whole ++ fraction ++ exponent, rest)

-- The key of a member and its colon.
def readKey (cs : List Char) : Option (String × List Char) :=
  match skipBlank cs with
  | '"' :: rest =>
    match scanString rest with
    | some (key, rest) =>
      match skipBlank rest with
      | ':' :: rest => some (String.ofList key, rest)
      | _ => none
    | none => none
  | _ => none

mutual

def readValue : (fuel : Nat) → List Char → Option (Json × List Char)
  | 0, _ => none
  | fuel + 1, cs =>
    match skipBlank cs with
    | '"' :: rest => (scanString rest).map fun (s, r) => (.string (String.ofList s), r)
    | '[' :: rest =>
      match readItems fuel rest with
      | (items, some rest) => some (.array items, rest)
      | (_, none) => none
    | '\x7b' :: rest =>
      match readMembers fuel rest with
      | (members, some rest) => some (.object members, rest)
      | (_, none) => none
    | 'n' :: 'u' :: 'l' :: 'l' :: rest => some (.null, rest)
    | 't' :: 'r' :: 'u' :: 'e' :: rest => some (.bool true, rest)
    | 'f' :: 'a' :: 'l' :: 's' :: 'e' :: rest => some (.bool false, rest)
    | cs => (scanNumber cs).map fun (s, r) => (.number (String.ofList s), r)

-- The items of a list whose bracket was opened, and what follows the closing one. Without a rest
-- the text broke off after these items.
def readItems : (fuel : Nat) → List Char → List Json × Option (List Char)
  | 0, _ => ([], none)
  | fuel + 1, cs =>
    match skipBlank cs with
    | ']' :: rest => ([], some rest)
    | cs => readMoreItems fuel cs

def readMoreItems : (fuel : Nat) → List Char → List Json × Option (List Char)
  | 0, _ => ([], none)
  | fuel + 1, cs =>
    match readValue fuel cs with
    | none => ([], none)
    | some (item, rest) =>
      match skipBlank rest with
      | ',' :: rest =>
        let (items, rest) := readMoreItems fuel rest
        (item :: items, rest)
      | ']' :: rest => ([item], some rest)
      | _ => ([item], none)

-- The members of an object whose brace was opened, as `readItems` reads items.
def readMembers : (fuel : Nat) → List Char → List (String × Json) × Option (List Char)
  | 0, _ => ([], none)
  | fuel + 1, cs =>
    match skipBlank cs with
    | '\x7d' :: rest => ([], some rest)
    | cs => readMoreMembers fuel cs

def readMoreMembers : (fuel : Nat) → List Char → List (String × Json) × Option (List Char)
  | 0, _ => ([], none)
  | fuel + 1, cs =>
    match readKey cs with
    | none => ([], none)
    | some (key, rest) =>
      match readValue fuel rest with
      | none => ([], none)
      | some (value, rest) =>
        match skipBlank rest with
        | ',' :: rest =>
          let (members, rest) := readMoreMembers fuel rest
          ((key, value) :: members, rest)
        | '\x7d' :: rest => ([(key, value)], some rest)
        | _ => ([(key, value)], none)

end

-- The value a text begins with. It is complete if nothing is wrong with the text; otherwise it is
-- what was read of the outermost list or object.
structure Document where
  value : Json
  complete : Bool
deriving Inhabited

namespace Document

def ofRest (value : Json) (rest : Option (List Char)) : Document where
  value := value
  complete := match rest with
    | some rest => (skipBlank rest).isEmpty
    | none => false

-- Every nested value takes two units of fuel and at least one character.
def fuelFor (cs : List Char) : Nat :=
  2 * cs.length + 2

def read (text : String) : Document :=
  let cs := skipBlank text.toList
  let fuel := fuelFor cs
  match cs with
  | '[' :: rest => let (items, rest) := readItems fuel rest; ofRest (.array items) rest
  | '\x7b' :: rest => let (members, rest) := readMembers fuel rest; ofRest (.object members) rest
  | cs =>
    match readValue fuel cs with
    | some (value, rest) => ofRest value (some rest)
    | none => ⟨.null, false⟩

end Document

def parse? (text : String) : Option Json :=
  let document := Document.read text
  if document.complete then some document.value else none

end NamespaceService.Json
