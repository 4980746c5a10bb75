import NamespaceService.Yaml.Token

namespace NamespaceService.Yaml

structure Scalar where
  text : String
  style : ScalarStyle
  tag : Option String
deriving DecidableEq

inductive Tree
  | scalar (anchor : Option Nat) (value : Scalar)
  | sequence (anchor : Option Nat) (items : List Tree)
  | mapping (anchor : Option Nat) (entries : List (Tree × Tree))
  -- Stands for a tree that has this anchor.
  | alias (anchor : Nat)
  -- What could not be read. Nothing comes after it.
  | missing
deriving Inhabited

namespace Tree

def absent (anchor : Option Nat) (tag : Option String) : Tree :=
  .scalar anchor { text := "", style := .plain, tag }

mutual

-- The trees that have anchors, in the order in which they begin.
def anchored : Tree → List (Nat × Tree)
  | .scalar anchor value => (anchor.map (·, .scalar anchor value)).toList
  | .sequence anchor items => (anchor.map (·, .sequence anchor items)).toList ++ anchoredItems items
  | .mapping anchor entries =>
    (anchor.map (·, .mapping anchor entries)).toList ++ anchoredEntries entries
  | .alias _ | .missing => []

def anchoredItems : List Tree → List (Nat × Tree)
  | [] => []
  | item :: items => item.anchored ++ anchoredItems items

def anchoredEntries : List (Tree × Tree) → List (Nat × Tree)
  | [] => []
  | (key, value) :: entries => key.anchored ++ value.anchored ++ anchoredEntries entries

end

end Tree

-- The tokens to come, and what names in them stand for.
structure Reader where
  tokens : List Token
  -- The names of anchors, each once.
  names : List (String × Nat) := []
  handles : List (String × String) := []

namespace Reader

variable (r : Reader)

def skip : Reader :=
  { r with tokens := r.tokens.drop 1 }

def follows (tokens : List Token) : Bool :=
  r.tokens.head?.any (· ∈ tokens)

structure Properties where
  anchor : Option String := none
  tag : Option (String × String) := none

def readProperties : Properties × Reader :=
  match r.tokens with
  | .anchor name :: .tag handle suffix :: tokens
  | .tag handle suffix :: .anchor name :: tokens =>
    ({ anchor := some name, tag := some (handle, suffix) }, { r with tokens })
  | .anchor name :: tokens => ({ anchor := some name }, { r with tokens })
  | .tag handle suffix :: tokens => ({ tag := some (handle, suffix) }, { r with tokens })
  | _ => ({}, r)

-- What a tag stands for. A tag without a handle stands for itself.
def resolveTag : Option (String × String) → Option (Option String)
  | none => some none
  | some ("", suffix) => some (some suffix)
  | some (handle, suffix) => (r.handles.lookup handle).map fun expansion => some (expansion ++ suffix)

-- An anchor is the count of the names before it. A name that is given again therefore gets the
-- anchor that the next new name gets too.
def openAnchor : Option String → Option Nat × Reader
  | some name =>
    let anchor := r.names.length
    let others := r.names.filter (·.1 ≠ name)
    (some anchor, { r with names := (name, anchor) :: others })
  | none => (none, r)

-- Where a tree stands. In a block it may be written by indentation, and after a key the items of a
-- sequence need not be indented further.
inductive Place
  | flow
  | block
  | afterKey
deriving DecidableEq

-- What was read, and how reading goes on, unless something is wrong.
abbrev Reading (α : Type) := α × Option Reader

namespace Reading

def map {α β : Type} (f : α → β) (reading : Reading α) : Reading β :=
  (f reading.1, reading.2)

def failed : Reading Tree :=
  (.missing, none)

-- What follows the first tree, if that could be read.
def andThen {α : Type} (first : Reading Tree) (last : Tree → α) (next : Tree → Reader → Reading α) :
    Reading α :=
  match first with
  | (tree, some r) => next tree r
  | (tree, none) => (last tree, none)

end Reading

mutual

-- One tree; there are at most `limit` trees inside one another or side by side.
def readTree (limit : Nat) (place : Place) (r : Reader) : Reading Tree :=
  match limit with
  | 0 => .failed
  | limit + 1 =>
    match r.tokens with
    | .alias name :: _ =>
      match r.names.lookup name with
      | some anchor => (.alias anchor, some r.skip)
      | none => .failed
    | _ =>
      let (properties, r) := r.readProperties
      match r.resolveTag properties.tag with
      | none => .failed
      | some tag =>
        let (anchor, inside) := r.openAnchor properties.anchor
        let inBlock := place ≠ .flow
        match r.tokens with
        | .scalar style text :: _ => (.scalar anchor { text, style, tag }, some inside.skip)
        | .flowSequence :: _ => (readFlowItems limit true inside.skip).map (.sequence anchor)
        | .flowMapping :: _ => (readFlowEntries limit true inside.skip).map (.mapping anchor)
        | token :: _ =>
          if place = .afterKey ∧ token = .item then
            (readItems limit true inside).map (.sequence anchor)
          else if inBlock ∧ token = .blockSequence then
            (readItems limit false inside.skip).map (.sequence anchor)
          else if inBlock ∧ token = .blockMapping then
            (readEntries limit inside.skip).map (.mapping anchor)
          else if properties.anchor.isSome ∨ properties.tag.isSome then
            (.absent anchor tag, some inside)
          else .failed
        | [] => .failed

-- A tree that is absent if one of the tokens `stops` follows.
def readOptional (limit : Nat) (place : Place) (stops : List Token) (r : Reader) : Reading Tree :=
  match limit with
  | 0 => .failed
  | limit + 1 =>
    if r.follows stops then (.absent none none, some r) else readTree limit place r

-- The items of a sequence, each behind its sign. If they are not indented the sequence ends where
-- no sign follows.
def readItems (limit : Nat) (isLevel : Bool) (r : Reader) : Reading (List Tree) :=
  match limit with
  | 0 => ([.missing], none)
  | limit + 1 =>
    match r.tokens with
    | .item :: _ =>
      let stops := if isLevel then [.item, .key, .value, .blockEnd] else [.item, .blockEnd]
      (readOptional limit .block stops r.skip).andThen ([·]) fun item r =>
        (readItems limit isLevel r).map (item :: ·)
    | .blockEnd :: _ => ([], some (if isLevel then r else r.skip))
    | _ :: _ => if isLevel then ([], some r) else ([.missing], none)
    | [] => ([.missing], none)

def readEntries (limit : Nat) (r : Reader) : Reading (List (Tree × Tree)) :=
  match limit with
  | 0 => ([(.missing, .missing)], none)
  | limit + 1 =>
    match r.tokens with
    | .key :: _ =>
      let stops := [.key, .value, .blockEnd]
      (readOptional limit .afterKey stops r.skip).andThen (fun key => [(key, .missing)]) fun key r =>
        (readValue limit .afterKey stops r).andThen (fun value => [(key, value)]) fun value r =>
          (readEntries limit r).map ((key, value) :: ·)
    | .blockEnd :: _ => ([], some r.skip)
    | _ => ([(.missing, .missing)], none)

-- The value behind a colon. Without a colon it is absent.
def readValue (limit : Nat) (place : Place) (stops : List Token) (r : Reader) : Reading Tree :=
  match limit with
  | 0 => .failed
  | limit + 1 =>
    match r.tokens with
    | .value :: _ => readOptional limit place stops r.skip
    | _ :: _ => (.absent none none, some r)
    | [] => .failed

-- The items of a sequence between brackets. An item may be a mapping of one key.
def readFlowItems (limit : Nat) (isFirst : Bool) (r : Reader) : Reading (List Tree) :=
  match limit with
  | 0 => ([.missing], none)
  | limit + 1 =>
    if r.follows [.flowSequenceEnd] then ([], some r.skip)
    else if isFirst ∨ r.follows [.comma] then
      let r := if isFirst then r else r.skip
      if r.follows [.flowSequenceEnd] then ([], some r.skip)
      else
        let first := if r.follows [.key] then readPair limit r.skip else readTree limit .flow r
        first.andThen ([·]) fun item r => (readFlowItems limit false r).map (item :: ·)
    else ([.missing], none)

def readPair (limit : Nat) (r : Reader) : Reading Tree :=
  match limit with
  | 0 => .failed
  | limit + 1 =>
    let stops : List Token := [.value, .comma, .flowSequenceEnd]
    -- Where the key is absent the token behind it is passed over.
    let key : Reading Tree :=
      if r.follows stops then (.absent none none, some r.skip) else readTree limit .flow r
    key.andThen (fun key => .mapping none [(key, .missing)]) fun key r =>
      (readValue limit .flow [.comma, .flowSequenceEnd] r).map (fun value => .mapping none [(key, value)])

-- The entries of a mapping between braces. A tree without a colon is a key whose value is absent.
def readFlowEntries (limit : Nat) (isFirst : Bool) (r : Reader) : Reading (List (Tree × Tree)) :=
  match limit with
  | 0 => ([(.missing, .missing)], none)
  | limit + 1 =>
    if r.follows [.flowMappingEnd] then ([], some r.skip)
    else if isFirst ∨ r.follows [.comma] then
      let r := if isFirst then r else r.skip
      if r.follows [.flowMappingEnd] then ([], some r.skip)
      else
        let isMarked := r.follows [.key]
        let key : Reading Tree :=
          if isMarked then readOptional limit .flow [.value, .comma, .flowMappingEnd] r.skip
          else readTree limit .flow r
        key.andThen (fun key => [(key, .missing)]) fun key r =>
          let value : Reading Tree :=
            if isMarked then readValue limit .flow [.comma, .flowMappingEnd] r
            else if r.tokens = [] then .failed
            else (.absent none none, some r)
          value.andThen (fun value => [(key, value)]) fun value r =>
            (readFlowEntries limit false r).map ((key, value) :: ·)
    else ([(.missing, .missing)], none)

end

structure Directives where
  hasVersion : Bool := false
  handles : List (String × String) := []

-- Reads directives up to the start of a document. There is at most one version, and a handle is
-- given once.
def readDirectives (d : Directives) : List Token → Option (Directives × List Token)
  | .version major minor :: tokens =>
    if d.hasVersion || major ≠ 1 || (minor ≠ 1 && minor ≠ 2) then none
    else readDirectives { d with hasVersion := true } tokens
  | .tagDirective handle expansion :: tokens =>
    if (d.handles.lookup handle).isSome then none
    else readDirectives { d with handles := d.handles ++ [(handle, expansion)] } tokens
  | .documentStart :: tokens => some (d, tokens)
  | _ => none

def standardHandles : List (String × String) :=
  [("!", "!"), ("!!", "tag:yaml.org,2002:")]

def isDirective : Token → Bool
  | .version .. | .tagDirective .. => true
  | _ => false

end Reader

-- A document, as far as it could be read. It is complete if it is the only one and nothing is wrong
-- with it.
structure Document where
  root : Tree
  complete : Bool

namespace Document

open Reader

-- Behind a document there is nothing but the end of the text.
def endsText (tokens : List Token) : Bool :=
  tokens.dropWhile (· = .documentEnd) = [.streamEnd]

def ofReading : Reading Tree → Document
  | (root, some r) => { root, complete := endsText r.tokens }
  | (root, none) => { root, complete := false }

def ofTokens (tokens : List Token) : Document :=
  let limit := 3 * tokens.length + 3
  let isExplicit := tokens.head?.any fun token => isDirective token || token = .documentStart
  if tokens = [.streamEnd] then { root := .absent none none, complete := true }
  else if isExplicit then
    match readDirectives {} tokens with
    | none => { root := .missing, complete := false }
    | some (d, tokens) =>
      let r : Reader := { tokens, handles := d.handles ++ standardHandles }
      if r.follows [.documentStart, .documentEnd, .streamEnd] ∨ tokens.head?.any isDirective then
        ofReading (.absent none none, some r)
      else ofReading (readTree limit .block r)
  else ofReading (readTree limit .block { tokens, handles := standardHandles })

def read (text : String) : Document :=
  ofTokens (Yaml.tokens text)

-- What a tree of the document is. An alias is the last tree with its anchor, even if that comes
-- behind the alias.
def resolve (document : Document) : Tree → Tree
  | .alias anchor => (document.root.anchored.reverse.lookup anchor).getD .missing
  | tree => tree

end Document

end NamespaceService.Yaml
