import NamespaceService.Yaml.Scalar

namespace NamespaceService.Yaml

-- Collections that are written by indentation get a token where they start and one where they end.
inductive Token
  | version (major minor : Nat)
  | tagDirective (handle expansion : String)
  | documentStart
  | documentEnd
  | streamEnd
  | blockSequence
  | blockMapping
  | blockEnd
  | flowSequence
  | flowSequenceEnd
  | flowMapping
  | flowMappingEnd
  | item
  | comma
  | key
  | value
  | anchor (name : String)
  | alias (name : String)
  | tag (handle suffix : String)
  | scalar (style : ScalarStyle) (text : String)
deriving DecidableEq

def scanName (p : Cursor) : Option (String × Cursor) :=
  let (name, p) := p.span isNameChar
  let isEnded := endsWord p.head || p.head.any (· ∈ ['?', ':', ',', ']', '\x7d', '%', '@', '\x60'])
  if !name.isEmpty && isEnded then some (String.ofList name, p) else none

-- How many octets a character has whose first octet is this.
def octetCount? (octet : Nat) : Option Nat :=
  if octet < 0x80 then some 1
  else if octet < 0xc0 then none
  else if octet < 0xe0 then some 2
  else if octet < 0xf0 then some 3
  else if octet < 0xf8 then some 4
  else none

-- The characters of a tag. Octets may be written as escapes, as many in a row as a character has;
-- `missing` tells how many are still to come.
def scanTagText (inBrackets : Bool) (missing : Nat) :
    List Char → Option (List Char × List Char)
  | '%' :: a :: b :: rest => do
    let octet := (← Json.hexDigit? a) * 16 + (← Json.hexDigit? b)
    let missing ←
      if missing = 0 then octetCount? octet
      else if 0x80 ≤ octet ∧ octet < 0xc0 then some missing
      else none
    let (text, rest) ← scanTagText inBrackets (missing - 1) rest
    return (Char.ofNat octet :: text, rest)
  | c :: rest =>
    if c = '%' ∨ 0 < missing then none
    else if isNameChar c || c ∈ ";/?:@&=+$.!~*\x27()".toList || inBrackets && c ∈ [',', '[', ']']
    then do
      let (text, rest) ← scanTagText inBrackets 0 rest
      return (c :: text, rest)
    else some ([], c :: rest)
  | [] => if missing = 0 then some ([], []) else none

def scanTagUri (inBrackets : Bool) (p : Cursor) : Option (String × Cursor) := do
  let (text, rest) ← scanTagText inBrackets 0 p.rest
  return (String.ofList text, Cursor.skip (p.rest.length - rest.length) p)

-- A handle: `!`, or a name between two of them, of which the second may be missing.
def scanTagHandle (p : Cursor) : Option (String × Cursor) := do
  let (name, p) := (← p.expect '!').span isNameChar
  match p.expect '!' with
  | some p => return ("!" ++ String.ofList name ++ "!", p)
  | none => return ("!" ++ String.ofList name, p)

def isWholeHandle (handle : String) : Bool :=
  1 < handle.length && handle.endsWith "!"

-- What a tag says ends before an octet of zero.
def beforeZero (text : String) : String :=
  String.ofList (text.toList.takeWhile (· ≠ '\x00'))

def scanTagBody (p : Cursor) : Option (Token × Cursor) :=
  match p.next.expect '<' with
  | some p => do
    let (suffix, p) ← scanTagUri true p
    if suffix.isEmpty then none else return (.tag "" (beforeZero suffix), ← p.expect '>')
  | none => do
    let (handle, p) ← scanTagHandle p
    let (rest, p) ← scanTagUri false p
    if isWholeHandle handle then
      if rest.isEmpty then none else return (.tag handle (beforeZero rest), p)
    else
      let suffix := beforeZero (String.ofList (handle.toList.drop 1) ++ rest)
      return (if suffix.isEmpty then .tag "" "!" else .tag "!" suffix, p)

def scanTag (inFlow : Bool) (p : Cursor) : Option (Token × Cursor) := do
  let (token, p) ← scanTagBody p
  if endsWord p.head || inFlow && p.head = some ',' then return (token, p) else none

def scanVersionNumber (p : Cursor) : Option (Nat × Cursor) :=
  let (digits, p) := p.span Char.isDigit
  if digits.isEmpty || 9 < digits.length then none else some (Json.digitsValue digits, p)

def scanVersion (p : Cursor) : Option (Token × Cursor) := do
  let (major, p) ← scanVersionNumber p
  let (minor, p) ← scanVersionNumber (← p.expect '.')
  return (.version major minor, p)

def scanTagDirective (p : Cursor) : Option (Token × Cursor) := do
  let (handle, p) ← scanTagHandle p
  if handle ≠ "!" ∧ !isWholeHandle handle ∨ !p.head.any isBlank then none
  let (expansion, p) ← scanTagUri true (p.skipWhile isBlank)
  if expansion.isEmpty || !endsWord p.head then none
  return (.tagDirective handle (beforeZero expansion), p)

def scanDirective (p : Cursor) : Option (Token × Cursor) := do
  let (name, p) := p.next.span isNameChar
  if !endsWord p.head then none
  let p := p.skipWhile isBlank
  let (token, p) ←
    if String.ofList name = "YAML" then scanVersion p
    else if String.ofList name = "TAG" then scanTagDirective p
    else none
  return (token, ← p.finishLine)

-- A token that becomes a key if a colon follows on the same line; the token of a key is then put
-- before it.
structure KeyCandidate where
  -- How many tokens come before it.
  position : Nat
  line : Nat
  column : Nat
  -- The length of the text from here on, in UTF-8.
  octetsLeft : Nat
  -- It stands where there must be a key.
  required : Bool

structure Layout where
  cursor : Cursor
  -- The text goes on behind what can be read of it.
  isCut : Bool := false
  tokens : List Token := []
  -- The indentations of the open collections, innermost first.
  indents : List Nat := []
  -- Whether a key may begin here.
  keyAllowed : Bool := true
  -- One place for a candidate outside of flow collections, and one in each open flow collection,
  -- innermost first.
  candidate : Option KeyCandidate := none
  outerCandidates : List (Option KeyCandidate) := []

namespace Layout

variable (l : Layout)

def inFlow : Bool :=
  !l.outerCandidates.isEmpty

def emit (token : Token) (cursor : Cursor) : Layout :=
  { l with cursor, tokens := l.tokens ++ [token] }

def insert (position : Nat) (token : Token) : Layout :=
  { l with tokens := l.tokens.insertIdx position token }

-- Passes over blanks, comments and ends of lines. Behind the end of a line a key may begin, and
-- where one may begin there can be no tab.
def skipSpace : (limit : Nat) → Layout → Layout
  | 0, l => l
  | limit + 1, l =>
    let noTab := l.keyAllowed && !l.inFlow
    let p := l.cursor.skipByteOrderMark
    let p := (p.skipWhile fun c => c = ' ' || c = '\t' && !noTab).skipComment
    if p.head.any isBreak then
      skipSpace limit { l with cursor := p.next, keyAllowed := l.keyAllowed || !l.inFlow }
    else { l with cursor := p }

-- A candidate is given up on the next line, or more than 1024 octets behind its start.
def expire (line octetsLeft : Nat) (candidate : Option KeyCandidate) :
    Option (Option KeyCandidate) :=
  match candidate with
  | some k =>
    if k.line < line || octetsLeft + 1024 < k.octetsLeft then
      if k.required then none else some none
    else some (some k)
  | none => some none

def expireCandidates : Option Layout := do
  let expire := expire l.cursor.line l.cursor.octetsLeft
  let candidate ← expire l.candidate
  let outerCandidates ← l.outerCandidates.mapM expire
  return { l with candidate, outerCandidates }

def giveUpCandidate : Option Layout :=
  if l.candidate.any (·.required) then none else some { l with candidate := none }

def noteCandidate : Option Layout :=
  if l.keyAllowed then do
    let l ← l.giveUpCandidate
    let { line, column, .. } := l.cursor
    let candidate : KeyCandidate := {
      position := l.tokens.length
      line
      column
      octetsLeft := l.cursor.octetsLeft
      required := !l.inFlow && l.indents.head? = some column
    }
    return { l with candidate }
  else some l

-- The tokens before the first that may still become a key.
def settled : List Token :=
  let candidates := (l.candidate :: l.outerCandidates).filterMap id
  l.tokens.take (candidates.foldl (min · ·.position) l.tokens.length)

-- Fewer than `count` characters can be seen, and the text goes on.
def lacksSight (count : Nat) : Bool :=
  l.isCut && l.cursor.rest.length < count

-- Closes the collections that are indented deeper than `column`.
def closeDeeper (column : Nat) : List Nat → Layout → Layout
  | [], l => { l with indents := [] }
  | indent :: outer, l =>
    if column < indent then closeDeeper column outer (l.emit .blockEnd l.cursor)
    else { l with indents := indent :: outer }

def dedent : Layout :=
  if l.inFlow then l else closeDeeper l.cursor.column l.indents l

def closeAll : Layout :=
  if l.inFlow then l
  else { l with tokens := l.tokens ++ l.indents.map fun _ => .blockEnd, indents := [] }

-- Opens a collection at `column`, unless one is open there.
def openAt (column position : Nat) (collection : Token) : Layout :=
  if !l.inFlow && l.indents.head?.all (· < column) then
    { l.insert position collection with indents := column :: l.indents }
  else l

def readDocumentMark (token : Token) : Option Layout := do
  let l ← l.closeAll.giveUpCandidate
  return { l with keyAllowed := false }.emit token (l.cursor.skip 3)

def readDirective : Option Layout := do
  let l ← l.closeAll.giveUpCandidate
  let (token, p) ← scanDirective l.cursor
  return { l with keyAllowed := false }.emit token p

def openFlow (token : Token) : Option Layout := do
  let l ← l.noteCandidate
  return { l with
    keyAllowed := true
    candidate := none
    outerCandidates := l.candidate :: l.outerCandidates }.emit token l.cursor.next

def closeFlow (token : Token) : Option Layout := do
  let l ← l.giveUpCandidate
  let l := match l.outerCandidates with
    | candidate :: outerCandidates => { l with candidate, outerCandidates }
    | [] => l
  return { l with keyAllowed := false }.emit token l.cursor.next

def readComma : Option Layout := do
  let l ← l.giveUpCandidate
  return { l with keyAllowed := true }.emit .comma l.cursor.next

def readItem : Option Layout := do
  if !l.inFlow && !l.keyAllowed then none
  let l ← (l.openAt l.cursor.column l.tokens.length .blockSequence).giveUpCandidate
  return { l with keyAllowed := true }.emit .item l.cursor.next

def readKey : Option Layout := do
  if !l.inFlow && !l.keyAllowed then none
  let l ← (l.openAt l.cursor.column l.tokens.length .blockMapping).giveUpCandidate
  return { l with keyAllowed := !l.inFlow }.emit .key l.cursor.next

def readValue : Option Layout :=
  match l.candidate with
  | some k =>
    let l := (l.insert k.position .key).openAt k.column k.position .blockMapping
    some ({ l with candidate := none, keyAllowed := false }.emit .value l.cursor.next)
  | none => do
    if !l.inFlow && !l.keyAllowed then none
    let l := l.openAt l.cursor.column l.tokens.length .blockMapping
    return { l with keyAllowed := !l.inFlow }.emit .value l.cursor.next

def readAnchor (token : String → Token) : Option Layout := do
  let l ← l.noteCandidate
  let (name, p) ← scanName l.cursor.next
  return { l with keyAllowed := false }.emit (token name) p

def readTag : Option Layout := do
  let l ← l.noteCandidate
  let (token, p) ← scanTag l.inFlow l.cursor
  return { l with keyAllowed := false }.emit token p

def readBlockScalar (isFolded : Bool) : Option Layout := do
  let l ← l.giveUpCandidate
  let (text, p) ← scanBlock isFolded l.indents.head? l.cursor.next
  let style : ScalarStyle := if isFolded then .other else .literal
  return { l with keyAllowed := true }.emit (.scalar style (String.ofList text)) p

def readQuoted (quote : Char) : Option Layout := do
  let l ← l.noteCandidate
  let p := l.cursor.next
  let (text, p) ← scanQuoted quote none {} [] p.line p.column p.rest
  return { l with keyAllowed := false }.emit (.scalar .other (String.ofList text)) p

def readPlain : Option Layout := do
  let l ← l.noteCandidate
  let { rest, line, column } := l.cursor
  let indent := l.indents.head?.elim 0 (· + 1)
  let scalar ← scanPlain l.inFlow indent {} [] line column rest
  return { l with keyAllowed := scalar.endsLine }.emit
    (.scalar .plain (String.ofList scalar.text)) scalar.behind

def isIndicator (c : Char) : Bool :=
  c ∈ "-?:,[]\x7b\x7d#&*!|>\x27\"%@\x60".toList

def readToken (c : Char) : Option Layout :=
  let isWord := endsWord (l.cursor.peek 1)
  if l.cursor.column = 0 && c = '%' then l.readDirective
  else if l.cursor.atDocumentMark '-' then l.readDocumentMark .documentStart
  else if l.cursor.atDocumentMark '.' then l.readDocumentMark .documentEnd
  else if c = '[' then l.openFlow .flowSequence
  else if c = '\x7b' then l.openFlow .flowMapping
  else if c = ']' then l.closeFlow .flowSequenceEnd
  else if c = '\x7d' then l.closeFlow .flowMappingEnd
  else if c = ',' then l.readComma
  else if c = '-' && isWord then l.readItem
  else if c = '?' && (l.inFlow || isWord) then l.readKey
  else if c = ':' && (l.inFlow || isWord) then l.readValue
  else if c = '*' then l.readAnchor .alias
  else if c = '&' then l.readAnchor .anchor
  else if c = '!' then l.readTag
  else if c = '|' && !l.inFlow then l.readBlockScalar false
  else if c = '>' && !l.inFlow then l.readBlockScalar true
  else if c = '\x27' || c = '"' then l.readQuoted c
  else if !isBlank c && (!isIndicator c || c ∈ ['-', '?', ':']) then l.readPlain
  else none

-- The end of the text closes what is open, and its last line.
def finish : Option Layout := do
  let l ← l.closeAll.giveUpCandidate
  return l.emit .streamEnd { l.cursor with line := l.cursor.line + 1, column := 0 }

-- Reads the next token. Four characters must be in sight before it, and one behind it.
def step : Option Layout := do
  let l ← (skipSpace (l.cursor.rest.length + 1) l).expireCandidates
  if l.lacksSight 4 then none
  let l := l.dedent
  let l ← match l.cursor.head with
    | some c => l.readToken c
    | none => l.finish
  if l.lacksSight 1 then none
  l.expireCandidates

-- Reads tokens until the end of the text. If something is wrong those before it are left that
-- nothing behind them can change.
def readAll : (limit : Nat) → Layout → List Token
  | 0, l => l.settled
  | limit + 1, l =>
    if l.tokens.getLast? = some .streamEnd then l.tokens
    else match l.step with
      | some l => readAll limit l
      | none => l.settled

end Layout

-- The tokens of a text. They end with the end of the text if nothing is wrong.
def tokens (text : String) : List Token :=
  let (readable, isAll) := readablePart pieceSize [] text.toList
  Layout.readAll (text.length + 2) { cursor := { rest := unifyBreaks readable }, isCut := !isAll }

end NamespaceService.Yaml
