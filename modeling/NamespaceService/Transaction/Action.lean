import NamespaceService.Program
import NamespaceService.Transaction.Context

namespace NamespaceService

namespace Program

def begin : Program (Except Fault TxId) :=
  call .begin

def lockedFind (kind : LockKind) (finder : Finder) (tx : TxId) :
    Program (Except Fault (Option Row)) := do
  let found : Except Fault (Option Row) ← call (.find tx kind finder)
  if found matches .ok _ then log .debug s!"locked {finder.text} as {kind.text}"
  return found

def lockedList (kind : LockKind) (finder : Finder) (tx : TxId) :
    Program (Except Fault (List Row)) := do
  let found : Except Fault (List Row) ← call (.findList tx kind finder)
  if let .ok rows := found then
    log .debug s!"locked {rows.length} rows for {finder.text} as {kind.text}"
  return found

def snapshotFind (finder : Finder) (tx : TxId) : Program (Except Fault (Option Row)) :=
  call (.find tx .readCommitted finder)

def snapshotList (finder : Finder) (tx : TxId) : Program (Except Fault (List Row)) :=
  call (.findList tx .readCommitted finder)

def probe (finder : Finder) (tx : TxId) : Program (Except Fault (Option Row)) := do
  let found : Option Row ← call (.probe tx finder)
  return .ok found

def commit (tx : TxId) (held : Nat) (changes : List Change) : Program (Except Fault Unit) := do
  let result : Except CommitRefusal Unit ← call (.commit tx changes)
  match result with
  | .ok () =>
    log .debug s!"tx {tx} committed {changes.length} changes holding {held} locks"
    return .ok ()
  | .error refusal =>
    if let .stale key := refusal then log .debug s!"tx {tx} conflict on {key.text}"
    return .error refusal.toFault

def rollback (tx : TxId) : Program (Except Fault Unit) :=
  call (.rollback tx)

end Program

-- An action answers from the context where it can, asks the store where the context is still open,
-- and fails otherwise. What it has learned and buffered stays in the context when it fails.
abbrev Action := ExceptT Fault (StateT Context Program)

namespace Action

variable {α : Type}

def ofExcept (result : Except Fault α) : Action α := fun c =>
  .done (result, c)

def change (f : Context → Context) : Action Unit := fun c =>
  .done (.ok (), f c)

def log (level : Level) (message : String) : Action Unit := fun c => do
  Program.log level message
  return (.ok (), c)

-- Answers from the context, or else, before the end of the lock phase, from the store.
def reading (finder : Finder) (known : Context → Option α)
    (ask : TxId → Program (Except Fault α)) (learn : Context → α → Context) : Action α := fun c =>
  match known c with
  | some answer => .done (.ok answer, c)
  | none =>
    if c.sealed then .done (.error (.storagePrevented finder.text), c)
    else do
      match ← ask c.tx with
      | .ok found => return (.ok found, learn c found)
      | .error fault => return (.error fault, c)

def lockFind (kind : LockKind) (finder : Finder) : Action (Option Row) :=
  reading finder (·.lockedAnswer? kind finder) (Program.lockedFind kind finder)
    (·.learnLocked kind finder)

def lockList (kind : LockKind) (finder : Finder) : Action (List Row) :=
  reading finder (·.lockedList? kind finder) (Program.lockedList kind finder)
    (·.learnLockedList kind finder)

def lockNode (kind : LockKind) (finder : Finder) : Action (Option Node) := do
  return (← lockFind kind finder).bind Row.node?

-- Looks a row up without a lock, to decide which lock to take.
def probe (finder : Finder) : Action (Option Row) :=
  reading finder (·.knownSingle? finder) (Program.probe finder) fun c _ => c

-- Reads a row as committed, without a lock of its own.
def find (finder : Finder) : Action (Option Row) :=
  reading finder (·.knownAnswer? finder) (Program.snapshotFind finder) (·.learn finder)

def findNode (finder : Finder) : Action (Option Node) := do
  return (← find finder).bind Row.node?

def findList (finder : Finder) : Action (List Row) :=
  reading finder (·.knownList? finder) (Program.snapshotList finder) (·.learnList finder)

def upsert (row : Row) : Action Unit :=
  change (·.upsert row)

def remove (key : Key) : Action Unit :=
  change (·.remove key)

def endLockPhase : Action Unit :=
  change Context.endLockPhase

-- Commits the buffered changes. They have to be covered by write locks if there was a lock phase,
-- and they are no longer buffered afterwards, whatever the store says.
def commit : Action Unit := fun c =>
  match if c.sealed then c.checkCoverage else .ok () with
  | .error fault => .done (.error fault, c)
  | .ok () => do
    let (changes, c) := c.takeChanges
    Program.log .debug s!"committing {changes.length} changes under {c.locks.size} locks"
    let result ← Program.commit c.tx c.locks.size changes
    return (result, c)

def rollback : Action Unit := fun c => do
  let c := c.takeChanges.2
  let result ← Program.rollback c.tx
  return (result, c)

end Action

end NamespaceService
