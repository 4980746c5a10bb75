namespace NamespaceService

inductive CoarseMode
  | none
  | read
  | write
deriving DecidableEq, Inhabited

-- The server-wide lock, as the guards that are out.
structure CoarseLock where
  readers : Nat := 0
  writers : Nat := 0
deriving DecidableEq, Inhabited

namespace CoarseLock

def isFree (lock : CoarseLock) : Bool :=
  lock.readers = 0 && lock.writers = 0

def acquire? (lock : CoarseLock) : CoarseMode → Option CoarseLock
  | .none => some lock
  | .read => if lock.writers = 0 then some { lock with readers := lock.readers + 1 } else none
  | .write => if lock.isFree then some { lock with writers := lock.writers + 1 } else none

def release (lock : CoarseLock) : CoarseMode → CoarseLock
  | .none => lock
  | .read => { lock with readers := lock.readers - 1 }
  | .write => { lock with writers := lock.writers - 1 }

end CoarseLock

abbrev LockId := Nat

-- A storage that is forgotten and registered again gets a new lock; guards of the old one stay as
-- they are.
structure StorageLocks where
  -- The lock of each registered storage.
  registered : List (String × LockId) := []
  -- Locks with a live guard.
  held : List LockId := []
  created : Nat := 0
deriving DecidableEq, Inhabited

namespace StorageLocks

def lockOf? (locks : StorageLocks) (storage : String) : Option LockId :=
  locks.registered.lookup storage

-- The lock of a storage, which is registered on first use.
def register (locks : StorageLocks) (storage : String) : LockId × StorageLocks :=
  match locks.lockOf? storage with
  | some lock => (lock, locks)
  | none =>
    (locks.created,
      { locks with
        registered := locks.registered ++ [(storage, locks.created)]
        created := locks.created + 1 })

-- Registers and locks a storage. Without an answer the lock has to wait; it is registered then,
-- too.
def acquire (locks : StorageLocks) (storage : String) : Option LockId × StorageLocks :=
  let (lock, locks) := locks.register storage
  if lock ∈ locks.held then (none, locks)
  else (some lock, { locks with held := lock :: locks.held })

def release (locks : StorageLocks) (lock : LockId) : StorageLocks :=
  { locks with held := locks.held.erase lock }

-- Forgets a storage that left; says whether it was registered.
def forget (locks : StorageLocks) (storage : String) : Bool × StorageLocks :=
  ((locks.lockOf? storage).isSome,
    { locks with registered := locks.registered.filter (·.1 ≠ storage) })

def size (locks : StorageLocks) : Nat :=
  locks.registered.length

end StorageLocks

end NamespaceService
