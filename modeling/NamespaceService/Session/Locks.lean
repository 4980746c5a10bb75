import NamespaceService.Guards
import NamespaceService.Lock.Held
import NamespaceService.Lock.Request
import NamespaceService.Row.Counter

namespace NamespaceService.Session

-- The kind at one level of a chain, where levels are words: there is no kind where looking one
-- level further down would leave the word.
def kindAtLevel? (mode : NodeMode) (level levels : UInt64) (leafIsDirectory : Bool) :
    Option LockKind :=
  let isLast := level.toNat = levels.toNat - 1
  if mode = .writeOnParent ∧ ¬isLast ∧ (Counter.next? level).isNone then none
  else some (mode.kindAt level.toNat levels.toNat leafIsDirectory)

def kindsAlong (mode : NodeMode) (levels : UInt64) (leafIsDirectory : Bool) : List LockKind :=
  (List.range levels.toNat).map (mode.kindAt · levels.toNat leafIsDirectory)

inductive LockStep
  | record (key : Key) (kind : LockKind)
  | holds (key : Key) (kind : LockKind)
  | kindOf (key : Key)

inductive LockAnswer
  | flag (value : Bool)
  | kind (kind : Option LockKind)

def LockStep.run (locks : LockSet) : LockStep → LockAnswer × LockSet
  | .record key kind => (.flag !(locks.holds key kind), locks.record key kind)
  | .holds key kind => (.flag (locks.holds key kind), locks)
  | .kindOf key => (.kind (locks.kindOf? key), locks)

-- The answers to lock steps, each with the locks held after it.
def runLockSteps (locks : LockSet) : List LockStep → List (LockAnswer × LockSet)
  | [] => []
  | step :: steps =>
    let (answer, locks) := step.run locks
    (answer, locks) :: runLockSteps locks steps

-- Adds requests one after another, going on after one that is refused.
def addRequests (requests : RequestSet) : List LockRequest → List (Except Fault Unit) × RequestSet
  | [] => ([], requests)
  | request :: rest =>
    match requests.add request with
    | .ok requests => let (results, set) := addRequests requests rest; (.ok () :: results, set)
    | .error fault => let (results, set) := addRequests requests rest; (.error fault :: results, set)

-- The guards kept in slots. Storages and the server-wide lock have slots of their own.
structure GuardSlots where
  storages : StorageLocks := {}
  coarse : CoarseLock := {}
  storageSlots : List (String × LockId) := []
  coarseSlots : List (String × CoarseMode) := []

inductive GuardStep
  | storage (id slot : String)
  | forget (id : String)
  | coarse (mode : CoarseMode) (slot : String)
  | tryWrite (slot : String)
  | drop (slot : String)

inductive GuardAnswer
  | locked
  | blocked
  | flag (value : Bool)
deriving DecidableEq

namespace GuardSlots

variable (s : GuardSlots)

def releaseStorage (slot : String) : GuardSlots :=
  match s.storageSlots.lookup slot with
  | some lock =>
    { s with
      storages := s.storages.release lock
      storageSlots := s.storageSlots.filter (·.1 ≠ slot) }
  | none => s

def releaseCoarse (slot : String) : GuardSlots :=
  match s.coarseSlots.lookup slot with
  | some mode =>
    { s with
      coarse := s.coarse.release mode
      coarseSlots := s.coarseSlots.filter (·.1 ≠ slot) }
  | none => s

-- The guard that was in the slot is dropped after the new one was taken.
def takeStorage (id slot : String) : GuardAnswer × GuardSlots :=
  match s.storages.acquire id with
  | (none, storages) => (.blocked, { s with storages })
  | (some lock, storages) =>
    let s := { s with storages }.releaseStorage slot
    (.locked, { s with storageSlots := (slot, lock) :: s.storageSlots })

def takeCoarse (mode : CoarseMode) (slot : String) : GuardAnswer × GuardSlots :=
  match s.coarse.acquire? mode with
  | none => (.blocked, s)
  | some coarse =>
    let s := { s with coarse }.releaseCoarse slot
    (.locked, { s with coarseSlots := (slot, mode) :: s.coarseSlots })

def isFilled (slot : String) : Bool :=
  (s.storageSlots.lookup slot).isSome || (s.coarseSlots.lookup slot).isSome

def perform : GuardStep → GuardAnswer × GuardSlots
  | .storage id slot => s.takeStorage id slot
  | .forget id =>
    let (known, storages) := s.storages.forget id
    (.flag known, { s with storages })
  | .coarse mode slot => s.takeCoarse mode slot
  | .tryWrite slot => s.takeCoarse .write slot
  | .drop slot => (.flag (s.isFilled slot), (s.releaseStorage slot).releaseCoarse slot)

-- The answers to guard steps, each with the guards that are out after it.
def run (s : GuardSlots) : List GuardStep → List (GuardAnswer × GuardSlots)
  | [] => []
  | step :: steps =>
    let (answer, s) := s.perform step
    (answer, s) :: run s steps

end GuardSlots

end NamespaceService.Session
