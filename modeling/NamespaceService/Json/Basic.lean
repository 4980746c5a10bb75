namespace NamespaceService

-- Numbers and strings keep the text they were written with, so that a value can be skipped without
-- being understood.
inductive Json
  | null
  | bool (value : Bool)
  -- The number as written.
  | number (literal : String)
  -- What stands between the quotes.
  | string (literal : String)
  | array (items : List Json)
  -- Members with their keys as written, in order.
  | object (members : List (String × Json))
deriving Inhabited

namespace Json

def hexDigit? (c : Char) : Option Nat :=
  if '0' ≤ c ∧ c ≤ '9' then some (c.toNat - '0'.toNat)
  else if 'a' ≤ c ∧ c ≤ 'f' then some (c.toNat - 'a'.toNat + 10)
  else if 'A' ≤ c ∧ c ≤ 'F' then some (c.toNat - 'A'.toNat + 10)
  else none

def hexUnit? (a b c d : Char) : Option Nat := do
  return ((← hexDigit? a) * 16 + (← hexDigit? b)) * 256 + (← hexDigit? c) * 16 + (← hexDigit? d)

-- The character that a letter after a backslash stands for.
def shortEscape? : Char → Option Char
  | '"' => some '"'
  | '\\' => some '\\'
  | '/' => some '/'
  | 'b' => some '\x08'
  | 'f' => some '\x0c'
  | 'n' => some '\n'
  | 'r' => some '\r'
  | 't' => some '\t'
  | _ => none

def isHighHalf (unit : Nat) : Bool :=
  0xD800 ≤ unit && unit < 0xDC00

def isLowHalf (unit : Nat) : Bool :=
  0xDC00 ≤ unit && unit < 0xE000

def joinHalves (high low : Nat) : Char :=
  Char.ofNat (0x10000 + (high - 0xD800) * 0x400 + (low - 0xDC00))

-- The characters that a literal stands for. Half of a surrogate pair stands for none.
def unescape : List Char → Option (List Char)
  | [] => some []
  | '\\' :: 'u' :: a :: b :: c :: d :: rest =>
    match hexUnit? a b c d with
    | none => none
    | some unit =>
      if isHighHalf unit then
        match rest with
        | '\\' :: 'u' :: a :: b :: c :: d :: rest =>
          match hexUnit? a b c d with
          | some low =>
            if isLowHalf low then (unescape rest).map (joinHalves unit low :: ·) else none
          | none => none
        | _ => none
      else if isLowHalf unit then none
      else (unescape rest).map (Char.ofNat unit :: ·)
  | '\\' :: e :: rest =>
    match shortEscape? e with
    | some c => (unescape rest).map (c :: ·)
    | none => none
  | c :: rest => (unescape rest).map (c :: ·)

def hexChar (digit : Nat) : Char :=
  (Nat.toDigits 16 digit).headD '0'

-- The letter that is written for a character behind a backslash, if there is one.
def escapeLetter? : Char → Option Char
  | '"' => some '"'
  | '\\' => some '\\'
  | '\x08' => some 'b'
  | '\x0c' => some 'f'
  | '\n' => some 'n'
  | '\r' => some 'r'
  | '\t' => some 't'
  | _ => none

-- Writes quotes, backslashes and control characters as escapes, by a letter where there is one.
def escape : List Char → List Char
  | [] => []
  | c :: rest =>
    match escapeLetter? c with
    | some e => '\\' :: e :: escape rest
    | none =>
      if c.toNat < 32 then
        '\\' :: 'u' :: '0' :: '0' :: hexChar (c.toNat / 16) :: hexChar (c.toNat % 16) :: escape rest
      else c :: escape rest

def writeLiteral (text : String) : String :=
  String.ofList (escape text.toList)

def ofText (text : String) : Json :=
  .string (writeLiteral text)

def text? : Json → Option String
  | .string literal => (unescape literal.toList).map String.ofList
  | _ => none

def ofNat (n : Nat) : Json :=
  .number (toString n)

def digitsValue (digits : List Char) : Nat :=
  digits.foldl (fun n c => n * 10 + (c.toNat - '0'.toNat)) 0

-- A number written as digits alone: no sign, point or exponent.
def nat? : Json → Option Nat
  | .number literal =>
    if literal.toList ≠ [] ∧ literal.toList.all Char.isDigit then some (digitsValue literal.toList)
    else none
  | _ => none

def bool? : Json → Option Bool
  | .bool value => some value
  | _ => none

def items? : Json → Option (List Json)
  | .array items => some items
  | _ => none

def isNull : Json → Bool
  | .null => true
  | _ => false

-- An object whose keys need no escapes.
def record (members : List (String × Json)) : Json :=
  .object members

def table (entries : List (String × Json)) : Json :=
  .object (entries.map fun (key, value) => (writeLiteral key, value))

mutual

def print : Json → String
  | .null => "null"
  | .bool true => "true"
  | .bool false => "false"
  | .number literal => literal
  | .string literal => "\"" ++ literal ++ "\""
  | .array items => "[" ++ printItems items ++ "]"
  | .object members => "\x7b" ++ printMembers members ++ "\x7d"

def printItems : List Json → String
  | [] => ""
  | [item] => print item
  | item :: items => print item ++ "," ++ printItems items

def printMembers : List (String × Json) → String
  | [] => ""
  | [(key, value)] => "\"" ++ key ++ "\":" ++ print value
  | (key, value) :: members => "\"" ++ key ++ "\":" ++ print value ++ "," ++ printMembers members

end

end Json

end NamespaceService
