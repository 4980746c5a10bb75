import NamespaceService.Json.Basic
import NamespaceService.Yaml.Cursor

namespace NamespaceService.Yaml

-- The style tells only what the meaning of a scalar depends on.
inductive ScalarStyle
  | plain
  | literal
  | other
deriving DecidableEq

-- What stands between two words. One end of a line is a space, and of several the first is left
-- out.
structure Gap where
  -- Blanks before the first end of a line.
  blanks : List Char := []
  breaks : List Char := []
  -- The gap begins with a line end that was written after a backslash, and is left out.
  escaped : Bool := false

namespace Gap

variable (g : Gap)

def isEmpty : Bool :=
  g.blanks.isEmpty && g.breaks.isEmpty && !g.escaped

def hasBreak : Bool :=
  !g.breaks.isEmpty || g.escaped

def add (c : Char) : Gap :=
  if isBreak c then { g with breaks := g.breaks ++ [c] }
  else if g.hasBreak then g
  else { g with blanks := g.blanks ++ [c] }

def text : List Char :=
  if g.escaped then g.breaks
  else match g.breaks with
    | [] => g.blanks
    | ['\n'] => [' ']
    | '\n' :: more => more
    | breaks => breaks

-- The gap behind what was read, backwards.
def textOnto (done : List Char) : List Char :=
  g.text.reverse ++ done

end Gap

structure PlainScalar where
  text : List Char
  -- A line ended behind the scalar.
  endsLine : Bool
  behind : Cursor

-- A scalar of the characters in `done`, backwards, with a gap behind it.
def PlainScalar.ofDone (done : List Char) (gap : Gap) (behind : Cursor) : PlainScalar :=
  ⟨done.reverse, gap.hasBreak, behind⟩

-- A plain scalar goes on over lines that are indented by `indent`. A word of it that comes after a
-- gap cannot begin with a comment sign. What was read of it is `done`, backwards.
def scanPlain (inFlow : Bool) (indent : Nat) (gap : Gap) (done : List Char) (line column : Nat) :
    List Char → Option PlainScalar
  | [] => some (.ofDone done gap ⟨[], line, column⟩)
  | c :: rest =>
    let here : Cursor := ⟨c :: rest, line, column⟩
    if isBlank c then
      if c = '\t' && gap.hasBreak && column < indent then none
      else scanPlain inFlow indent (gap.add c) done line (column + 1) rest
    else if isBreak c then scanPlain inFlow indent (gap.add c) done (line + 1) 0 rest
    else if !gap.isEmpty && (c = '#' || !inFlow && column < indent || here.isBetweenDocuments) then
      some (.ofDone done gap here)
    else if inFlow && c = ':' && rest.head?.any (fun d => isFlowMark d || d = '?') then none
    else if c = ':' && endsWord rest.head? || inFlow && isFlowMark c then
      some (.ofDone done gap here)
    else scanPlain inFlow indent {} (c :: gap.textOnto done) line (column + 1) rest

inductive Escape
  | char (c : Char)
  -- A code point in so many hexadecimal digits follows.
  | code (digits : Nat)

def escape? : Char → Option Escape
  | '0' => some (.char '\x00')
  | 'a' => some (.char '\x07')
  | 'b' => some (.char '\x08')
  | 't' | '\t' => some (.char '\t')
  | 'n' => some (.char '\n')
  | 'v' => some (.char '\x0b')
  | 'f' => some (.char '\x0c')
  | 'r' => some (.char '\r')
  | 'e' => some (.char '\x1b')
  | ' ' => some (.char ' ')
  | '"' => some (.char '"')
  | '/' => some (.char '/')
  | '\\' => some (.char '\\')
  | 'N' => some (.char '\x85')
  | '_' => some (.char '\xa0')
  | 'L' => some (.char '\u2028')
  | 'P' => some (.char '\u2029')
  | 'x' => some (.code 2)
  | 'u' => some (.code 4)
  | 'U' => some (.code 8)
  | _ => none

-- The character of a code point, unless it is half of a surrogate pair or too large.
def charOf? (n : Nat) : Option Char :=
  if n.isValidChar then some (Char.ofNat n) else none

-- A quoted scalar after its opening quote, up to behind the closing one. What was read of it is
-- `done`, backwards. While the digits of an escape are read, `code` is how many are missing and the
-- value of those that were read.
def scanQuoted (quote : Char) (code : Option (Nat × Nat)) (gap : Gap) (done : List Char)
    (line column : Nat) : List Char → Option (List Char × Cursor)
  | [] => none
  | c :: rest =>
    match code with
    | some (missing, value) =>
      match Json.hexDigit? c with
      | none => none
      | some digit =>
        let value := value * 16 + digit
        if 1 < missing then
          scanQuoted quote (some (missing - 1, value)) gap done line (column + 1) rest
        else match charOf? value with
          | some d => scanQuoted quote none gap (d :: done) line (column + 1) rest
          | none => none
    | none =>
      if (⟨c :: rest, line, column⟩ : Cursor).isBetweenDocuments then none
      else if isBlank c then scanQuoted quote none (gap.add c) done line (column + 1) rest
      else if isBreak c then scanQuoted quote none (gap.add c) done (line + 1) 0 rest
      else
        let done := gap.textOnto done
        if c = quote then
          match rest with
          | d :: rest =>
            -- Two single quotes stand for one.
            if quote = '\x27' && d = quote then
              scanQuoted quote none {} (quote :: done) line (column + 2) rest
            else some (done.reverse, ⟨d :: rest, line, column + 1⟩)
          | [] => some (done.reverse, ⟨[], line, column + 1⟩)
        else if quote = '"' && c = '\\' then
          match rest with
          | [] => none
          | d :: rest =>
            if isBreak d then scanQuoted quote none { escaped := true } done (line + 1) 0 rest
            else match escape? d with
              | some (.char e) => scanQuoted quote none {} (e :: done) line (column + 2) rest
              | some (.code digits) =>
                scanQuoted quote (some (digits, 0)) {} done line (column + 2) rest
              | none => none
        else scanQuoted quote none {} (c :: done) line (column + 1) rest

-- What becomes of the ends of lines at the end of a block scalar.
inductive Chomping
  | strip
  | clip
  | keep
deriving DecidableEq

def chomping? : Option Char → Option Chomping
  | some '-' => some .strip
  | some '+' => some .keep
  | _ => none

-- A digit that is not zero. The outer option tells whether there was a zero.
def indentDigit? : Option Char → Option (Option Nat)
  | some c =>
    if c = '0' then none
    else some (if c.isDigit then some (c.toNat - '0'.toNat) else none)
  | none => some none

-- The signs behind `|` or `>`: how lines are chomped, and how deep the scalar is indented.
def scanBlockHeader (p : Cursor) : Option ((Chomping × Option Nat) × Cursor) :=
  match chomping? p.head with
  | some chomping => do
    match ← indentDigit? p.next.head with
    | some n => return ((chomping, some n), p.next.next)
    | none => return ((chomping, none), p.next)
  | none => do
    match ← indentDigit? p.head with
    | some n =>
      match chomping? p.next.head with
      | some chomping => return ((chomping, some n), p.next.next)
      | none => return ((.clip, some n), p.next)
    | none => return ((.clip, none), p)

-- Passes over the indentation and over lines without text. An indentation that is not known yet is
-- that of the deepest of these lines.
def scanIndentation (indent : Option Nat) (deepest : Nat) (breaks : List Char) (line column : Nat) :
    List Char → Option (Nat × List Char × Cursor)
  | [] => some (max deepest column, breaks, ⟨[], line, column⟩)
  | c :: rest =>
    let isIndentation := indent.all (column < ·)
    if c = ' ' && isIndentation then
      scanIndentation indent deepest breaks line (column + 1) rest
    else if c = '\t' && isIndentation then none
    else if isBreak c then
      scanIndentation indent (max deepest column) (breaks ++ [c]) (line + 1) 0 rest
    else some (max deepest column, breaks, ⟨c :: rest, line, column⟩)

structure BlockText where
  text : List Char := []
  -- The end of the last line, and the ends of the lines without text behind it.
  lineEnd : List Char := []
  breaks : List Char := []
  -- The last line began with a blank.
  wasIndented : Bool := false

namespace BlockText

-- Adds a line, which begins at the indentation of the scalar.
def addLine (b : BlockText) (isFolded : Bool) (line lineEnd breaks : List Char) : BlockText :=
  let isIndented := line.head?.any isBlank
  let joint :=
    if isFolded && b.lineEnd = ['\n'] && !b.wasIndented && !isIndented then
      if b.breaks.isEmpty then [' '] else []
    else b.lineEnd
  { text := b.text ++ joint ++ b.breaks ++ line, lineEnd, breaks, wasIndented := isIndented }

def chomped (b : BlockText) : Chomping → List Char
  | .strip => b.text
  | .clip => b.text ++ b.lineEnd
  | .keep => b.text ++ b.lineEnd ++ b.breaks

end BlockText

-- The lines of a block scalar; there are no more of them than `limit`.
def scanLines (isFolded : Bool) (indent : Nat) :
    (limit : Nat) → BlockText → Cursor → Option (BlockText × Cursor)
  | 0, b, p => some (b, p)
  | limit + 1, b, p =>
    if p.column = indent && !p.atEnd then do
      let (line, p) := p.span (!isBreak ·)
      let lineEnd := p.head.toList
      let p := p.next
      let (_, breaks, p) ← scanIndentation (some indent) 0 [] p.line p.column p.rest
      scanLines isFolded indent limit (b.addLine isFolded line lineEnd breaks) p
    else some (b, p)

-- A block scalar behind its sign, inside a collection that is indented by `outer`.
def scanBlock (isFolded : Bool) (outer : Option Nat) (p : Cursor) :
    Option (List Char × Cursor) := do
  let ((chomping, deeper), p) ← scanBlockHeader p
  let p ← p.finishLine
  let least := max 1 (outer.elim 0 (· + 1))
  let given := deeper.map (outer.getD 0 + ·)
  let (deepest, breaks, p) ← scanIndentation given 0 [] p.line p.column p.rest
  let indent := given.getD (max deepest least)
  let (b, p) ← scanLines isFolded indent p.rest.length { breaks } p
  return (b.chomped chomping, p)

end NamespaceService.Yaml
