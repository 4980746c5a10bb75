import NamespaceService.Lock.Kind

namespace NamespaceService

-- The locks one attempt holds, each at the strongest kind recorded for its key.
abbrev LockSet := SortedBy (Prod.fst : Key × LockKind → Key)

namespace LockSet

def kindOf? (locks : LockSet) (key : Key) : Option LockKind :=
  (locks.find? key).map Prod.snd

def holds (locks : LockSet) (key : Key) (kind : LockKind) : Bool :=
  match locks.kindOf? key with
  | some held => kind ≤ held
  | none => false

-- Holds `key` at `kind` from now on, unless it is held at least as strongly already.
def record (locks : LockSet) (key : Key) (kind : LockKind) : LockSet :=
  if locks.holds key kind then locks else locks.insert (key, kind)

end LockSet

end NamespaceService
