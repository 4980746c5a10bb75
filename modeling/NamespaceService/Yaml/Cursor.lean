namespace NamespaceService.Yaml

def isBreak (c : Char) : Bool :=
  c = '\n' || c = '\u2028' || c = '\u2029'

def isBlank (c : Char) : Bool :=
  c = ' ' || c = '\t'

-- A blank, the end of a line or the end of the text.
def endsWord : Option Char → Bool
  | some c => isBlank c || isBreak c
  | none => true

-- Letters and digits are those of ASCII.
def isNameChar (c : Char) : Bool :=
  c.isAlphanum || c = '_' || c = '-'

def isFlowMark (c : Char) : Bool :=
  c ∈ [',', '[', ']', '\x7b', '\x7d']

-- Control characters cannot stand in a text, nor can the two last characters of the first plane.
def isReadable (c : Char) : Bool :=
  c = '\t' || c = '\n' || c = '\r' || c = '\x85' ||
    ('\x20' ≤ c && c ≤ '\x7e') || ('\xa0' ≤ c && c ≠ '\ufffe' && c ≠ '\uffff')

-- How many octets of a text are looked at together.
def pieceSize : Nat := 16384

-- The pieces of a text before the first that has a character which is not readable, and whether
-- that is the whole text. The last piece so far is `piece`, backwards, with room for so many
-- octets.
def readablePart (room : Nat) (piece : List Char) : List Char → List Char × Bool
  | [] => (piece.reverse, true)
  | c :: rest =>
    let isFull := room < c.utf8Size
    let whole := if isFull then piece.reverse else []
    let piece := if isFull then [] else piece
    let room := if isFull then pieceSize else room
    if isReadable c then
      let (more, isAll) := readablePart (room - c.utf8Size) (c :: piece) rest
      (whole ++ more, isAll)
    else (whole, false)

def unifyBreaks : List Char → List Char
  | [] => []
  | '\r' :: '\n' :: rest => '\n' :: unifyBreaks rest
  | c :: rest => (if c = '\r' ∨ c = '\x85' then '\n' else c) :: unifyBreaks rest

-- A place in a text, in which all ends of lines have been written as line feeds.
structure Cursor where
  rest : List Char
  line : Nat := 0
  column : Nat := 0
deriving Inhabited

namespace Cursor

variable (p : Cursor)

def peek (n : Nat) : Option Char :=
  p.rest[n]?

def head : Option Char :=
  p.peek 0

def atEnd : Bool :=
  p.rest.isEmpty

-- The length of what is to come, in UTF-8.
def octetsLeft : Nat :=
  p.rest.foldl (· + ·.utf8Size) 0

def next : Cursor :=
  match p.rest with
  | [] => p
  | c :: rest =>
    if isBreak c then { rest, line := p.line + 1 }
    else { p with rest, column := p.column + 1 }

def skip : Nat → Cursor → Cursor
  | 0, p => p
  | n + 1, p => skip n p.next

-- The characters at the front that satisfy `keep`, and the place behind them.
def span (keep : Char → Bool) : List Char × Cursor :=
  let taken := p.rest.takeWhile keep
  (taken, skip taken.length p)

def skipWhile (keep : Char → Bool) : Cursor :=
  (p.span keep).2

-- Passes over one character if it is there.
def expect (c : Char) : Option Cursor :=
  if p.head = some c then some p.next else none

-- A byte order mark may begin a line. It counts as a column.
def skipByteOrderMark : Cursor :=
  if p.column = 0 then (p.expect '\ufeff').getD p else p

-- Three times `mark`, as a word at the front of a line.
def atDocumentMark (mark : Char) : Bool :=
  p.column = 0 && p.rest.take 3 = [mark, mark, mark] && endsWord (p.peek 3)

def isBetweenDocuments : Bool :=
  p.atDocumentMark '-' || p.atDocumentMark '.'

def skipComment : Cursor :=
  if p.head = some '#' then p.skipWhile (!isBreak ·) else p

-- Passes over blanks and a comment up to the end of the line.
def finishLine : Option Cursor :=
  let p := (p.skipWhile isBlank).skipComment
  if p.atEnd || p.head.any isBreak then some p.next else none

end Cursor

end NamespaceService.Yaml
