import NamespaceService.Settings.Section
import NamespaceService.Yaml.Tree

namespace NamespaceService.Settings

open Yaml (Tree Scalar)

namespace Scalar

-- The scalar is read by its text: it is plain, or a literal block with the tag of what is read.
def isReadAs (kind : String) (s : Scalar) : Bool :=
  match s.style with
  | .plain => true
  | .literal => s.tag = some ("tag:yaml.org,2002:" ++ kind)
  | .other => false

def isNullText (text : String) : Bool :=
  text ∈ ["null", "Null", "NULL", "~"]

def digit? (radix : Nat) (c : Char) : Option Nat :=
  (Json.hexDigit? c).filter (· < radix)

def digitsValue? (radix : Nat) (digits : List Char) : Option Nat :=
  if digits.isEmpty then none
  else digits.foldlM (fun n c => (digit? radix c).map (n * radix + ·)) 0

-- A number without sign, or with a plus. It is hexadecimal, octal or binary behind `0x`, `0o` or
-- `0b`, and otherwise decimal without leading zeros.
def natOf? (text : String) : Option Nat :=
  let digits := match text.toList with
    | '+' :: rest => rest
    | cs => cs
  match digits with
  | '0' :: 'x' :: rest => digitsValue? 16 rest
  | '0' :: 'o' :: rest => digitsValue? 8 rest
  | '0' :: 'b' :: rest => digitsValue? 2 rest
  | '0' :: _ :: _ => none
  | digits => digitsValue? 10 digits

def boolOf? (text : String) : Option Bool :=
  if text ∈ ["true", "True", "TRUE"] then some true
  else if text ∈ ["false", "False", "FALSE"] then some false
  else none

def nat? (s : Scalar) : Option Nat :=
  if isReadAs "int" s then natOf? s.text else none

def bool? (s : Scalar) : Option Bool :=
  if isReadAs "bool" s then boolOf? s.text else none

def isAbsent (s : Scalar) : Bool :=
  s.style = .plain && s.text.isEmpty

-- Whether something is written: the scalar is not plain, or has another tag than that of null, or
-- other text. With the tag of null it must have a text of null.
def isPresent? (s : Scalar) : Option Bool :=
  if s.style ≠ .plain then some true
  else match s.tag with
    | some tag =>
      if tag ≠ "tag:yaml.org,2002:null" then some true
      else if isNullText s.text then some false
      else none
    | none => some (!s.text.isEmpty && !isNullText s.text)

end Scalar

-- The values of a document; aliases in it are the trees that they stand for.
def yaml (document : Yaml.Document) : Format Tree where
  text? tree := match document.resolve tree with
    | .scalar _ s => some s.text
    | _ => none
  nat? tree := match document.resolve tree with
    | .scalar _ s => Scalar.nat? s
    | _ => none
  bool? tree := match document.resolve tree with
    | .scalar _ s => Scalar.bool? s
    | _ => none
  items? tree := match document.resolve tree with
    | .sequence _ items => some items
    | .scalar _ s => if Scalar.isAbsent s then some [] else none
    | _ => none
  present? tree := match document.resolve tree with
    | .scalar _ s => (Scalar.isPresent? s).map fun present => if present then some tree else none
    | _ => some (some tree)

namespace Section

-- The entries up to the first key that is no scalar.
def scalarKeys (document : Yaml.Document) : List (Tree × Tree) → List (String × Tree)
  | [] => []
  | (key, value) :: entries =>
    match (yaml document).text? key with
    | some key => (key, value) :: scalarKeys document entries
    | none => []

def ofYaml (document : Yaml.Document) : Section Tree :=
  match document.root with
  | .mapping _ pairs =>
    let entries := scalarKeys document pairs
    ⟨entries, document.complete && entries.length = pairs.length⟩
  | .scalar _ s => if Scalar.isAbsent s then ⟨[], document.complete⟩ else unreadable
  | _ => unreadable

end Section

end NamespaceService.Settings
