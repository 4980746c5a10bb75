namespace NamespaceService

inductive Ip
  | v4 (a b c d : UInt8)
  | v6 (a b c d e f g h : UInt16)
deriving DecidableEq, Inhabited

-- An address with a port. A zone belongs to a version 6 address; 0 means none.
structure SocketAddress where
  ip : Ip
  port : UInt16
  zone : UInt32 := 0
deriving DecidableEq, Inhabited

namespace Ip

def localhost : Ip := .v4 127 0 0 1

def hexText (n : UInt16) : String :=
  String.ofList (Nat.toDigits 16 n.toNat)

def groupsText (groups : List UInt16) : String :=
  ":".intercalate (groups.map hexText)

def zerosAt (groups : List UInt16) : Nat :=
  (groups.takeWhile (· = 0)).length

-- Start and length of the longest run of zeros, the first of equally long ones.
def longestZeros (groups : List UInt16) : Nat × Nat :=
  (List.range groups.length).foldl (fun best start =>
    let length := zerosAt (groups.drop start)
    if best.2 < length then (start, length) else best) (0, 0)

def v4Text (a b c d : UInt8) : String :=
  s!"{a}.{b}.{c}.{d}"

def v6Text (groups : List UInt16) : String :=
  let (start, length) := longestZeros groups
  if 1 < length then
    groupsText (groups.take start) ++ "::" ++ groupsText (groups.drop (start + length))
  else groupsText groups

def highByte (n : UInt16) : UInt8 := (n >>> 8).toUInt8

def lowByte (n : UInt16) : UInt8 := n.toUInt8

-- A version 4 address inside version 6 is shown as one.
def text : Ip → String
  | .v4 a b c d => v4Text a b c d
  | .v6 0 0 0 0 0 0xffff g h =>
    "::ffff:" ++ v4Text (highByte g) (lowByte g) (highByte h) (lowByte h)
  | .v6 a b c d e f g h => v6Text [a, b, c, d, e, f, g, h]

def digit? (radix : Nat) (c : Char) : Option Nat :=
  let value? :=
    if '0' ≤ c ∧ c ≤ '9' then some (c.toNat - '0'.toNat)
    else if 'a' ≤ c ∧ c ≤ 'z' then some (c.toNat - 'a'.toNat + 10)
    else if 'A' ≤ c ∧ c ≤ 'Z' then some (c.toNat - 'A'.toNat + 10)
    else none
  value?.filter (· < radix)

-- The digits at the front of a text, and what follows them.
def scanDigits (radix : Nat) : List Char → List Nat × List Char
  | [] => ([], [])
  | c :: rest =>
    match digit? radix c with
    | some d => let (ds, rest) := scanDigits radix rest; (d :: ds, rest)
    | none => ([], c :: rest)

def numberOf (radix : Nat) (digits : List Nat) : Nat :=
  digits.foldl (fun n d => n * radix + d) 0

-- A decimal number up to 255, in at most three digits and without leading zeros.
def scanOctet (cs : List Char) : Option (UInt8 × List Char) :=
  match scanDigits 10 cs with
  | ([], _) => none
  | (0 :: _ :: _, _) => none
  | (digits, rest) =>
    if digits.length ≤ 3 ∧ numberOf 10 digits < 256 then
      some ((numberOf 10 digits).toUInt8, rest)
    else none

-- A group of at most four hexadecimal digits.
def scanGroup (cs : List Char) : Option (UInt16 × List Char) :=
  match scanDigits 16 cs with
  | ([], _) => none
  | (digits, rest) =>
    if digits.length ≤ 4 then some ((numberOf 16 digits).toUInt16, rest) else none

def scanMark (mark : Char) : List Char → Option (List Char)
  | c :: rest => if c = mark then some rest else none
  | [] => none

def scanV4 (cs : List Char) : Option ((UInt8 × UInt8 × UInt8 × UInt8) × List Char) := do
  let (a, cs) ← scanOctet cs
  let (b, cs) ← scanOctet (← scanMark '.' cs)
  let (c, cs) ← scanOctet (← scanMark '.' cs)
  let (d, cs) ← scanOctet (← scanMark '.' cs)
  return ((a, b, c, d), cs)

def joinBytes (high low : UInt8) : UInt16 :=
  high.toUInt16 <<< 8 ||| low.toUInt16

-- The colon stands in front of every group but the first.
def scanColon (isFirst : Bool) (cs : List Char) : Option (List Char) :=
  if isFirst then some cs else scanMark ':' cs

-- At most `limit` groups, and whether they end in a version 4 address, which takes the place of two
-- groups.
def scanGroups : (limit : Nat) → (isFirst : Bool) → List Char →
    (List UInt16 × Bool) × List Char
  | 0, _, cs => (([], false), cs)
  | limit + 1, isFirst, cs =>
    let embedded := if 0 < limit then (scanColon isFirst cs).bind scanV4 else none
    match embedded with
    | some ((a, b, c, d), rest) => (([joinBytes a b, joinBytes c d], true), rest)
    | none =>
      match (scanColon isFirst cs).bind scanGroup with
      | none => (([], false), cs)
      | some (group, rest) =>
        let ((groups, hasV4), rest) := scanGroups limit false rest
        ((group :: groups, hasV4), rest)

def ofGroups? : List UInt16 → Option Ip
  | [a, b, c, d, e, f, g, h] => some (.v6 a b c d e f g h)
  | _ => none

-- Zeros that are left out are at least one group, and no version 4 address comes before them.
def scanV6 (cs : List Char) : Option (Ip × List Char) := do
  let ((front, hasV4), cs) := scanGroups 8 true cs
  if front.length = 8 then return (← ofGroups? front, cs)
  if hasV4 then none
  let cs ← scanMark ':' (← scanMark ':' cs)
  let ((back, _), cs) := scanGroups (7 - front.length) true cs
  let zeros := List.replicate (8 - front.length - back.length) 0
  return (← ofGroups? (front ++ zeros ++ back), cs)

def scan (cs : List Char) : Option (Ip × List Char) :=
  match scanV4 cs with
  | some ((a, b, c, d), rest) => some (.v4 a b c d, rest)
  | none => scanV6 cs

def wholly {α : Type} : Option (α × List Char) → Option α
  | some (a, []) => some a
  | _ => none

def ofText? (text : String) : Option Ip :=
  wholly (scan text.toList)

end Ip

namespace SocketAddress

def text (address : SocketAddress) : String :=
  match address.ip with
  | .v4 .. => s!"{address.ip.text}:{address.port}"
  | .v6 .. =>
    let zone := if address.zone = 0 then "" else s!"%{address.zone}"
    s!"[{address.ip.text}{zone}]:{address.port}"

-- A decimal number below `bound`; leading zeros are allowed.
def scanNumber (bound : Nat) (cs : List Char) : Option (Nat × List Char) :=
  match Ip.scanDigits 10 cs with
  | ([], _) => none
  | (digits, rest) =>
    if Ip.numberOf 10 digits < bound then some (Ip.numberOf 10 digits, rest) else none

def scanPort (cs : List Char) : Option (UInt16 × List Char) := do
  let (port, rest) ← scanNumber UInt16.size (← Ip.scanMark ':' cs)
  return (port.toUInt16, rest)

def scanZone (cs : List Char) : Option (UInt32 × List Char) :=
  match cs with
  | '%' :: rest => (scanNumber UInt32.size rest).map fun (n, rest) => (n.toUInt32, rest)
  | cs => some (0, cs)

def scanV4 (cs : List Char) : Option (SocketAddress × List Char) := do
  let ((a, b, c, d), cs) ← Ip.scanV4 cs
  let (port, cs) ← scanPort cs
  return ({ ip := .v4 a b c d, port }, cs)

def scanV6 (cs : List Char) : Option (SocketAddress × List Char) := do
  let (ip, cs) ← Ip.scanV6 (← Ip.scanMark '[' cs)
  let (zone, cs) ← scanZone cs
  let (port, cs) ← scanPort (← Ip.scanMark ']' cs)
  return ({ ip, port, zone }, cs)

def ofText? (text : String) : Option SocketAddress :=
  match scanV4 text.toList with
  | some (address, rest) => Ip.wholly (some (address, rest))
  | none => Ip.wholly (scanV6 text.toList)

end SocketAddress

end NamespaceService
