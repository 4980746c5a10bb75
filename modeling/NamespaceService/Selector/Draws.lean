namespace NamespaceService

-- What the random policy draws from: one number after another.
abbrev Draws := Nat → Nat

namespace Draws

-- Scrambles a word so that near words come out far apart. Each step can be undone, so different
-- words stay different.
def scramble (word : UInt64) : UInt64 :=
  let word := (word ^^^ (word >>> 30)) * 0xbf58476d1ce4e5b9
  let word := (word ^^^ (word >>> 27)) * 0x94d049bb133111eb
  word ^^^ (word >>> 31)

def ofSeed (seed : UInt64) : Draws := fun n =>
  (scramble (seed + 0x9e3779b97f4a7c15 * n.toUInt64)).toNat

end Draws

end NamespaceService
