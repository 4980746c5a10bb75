import NamespaceService.Fault
import NamespaceService.Lock.Held
import NamespaceService.Store.Finder

namespace NamespaceService

-- What one attempt knows: the locks it holds, the rows it has read and the changes it has buffered.
-- Once it is sealed, nothing else can be read.
@[ext]
structure Context where
  tx : Nat
  locks : LockSet
  rows : Key → Option Row
  -- Answers to lookups of one row; `some none` knows that there is no row.
  singles : Finder → Option (Option Key)
  lists : Finder → Option (List Key)
  -- The owner of each row as it was first read.
  origins : Key → Option (Option Key)
  changes : List Change
  sealed : Bool

namespace Context

variable (c : Context)

def new (tx : Nat) : Context where
  tx := tx
  locks := .empty
  rows _ := none
  singles _ := none
  lists _ := none
  origins _ := none
  changes := []
  sealed := false

-- Ends the lock phase: from now on only what is known can be read.
def endLockPhase : Context :=
  { c with sealed := true }

def setSingle (finder : Finder) (key : Option Key) : Context :=
  { c with singles := fun f => if f = finder then some key else c.singles f }

def setList (finder : Finder) (keys : List Key) : Context :=
  { c with lists := fun f => if f = finder then some keys else c.lists f }

def setRow (row : Row) : Context :=
  { c with rows := fun k => if k = row.key then some row else c.rows k }

def lock (key : Key) (kind : LockKind) : Context :=
  { c with locks := c.locks.record key kind }

-- Keeps what was first known: the first owner, and answers that are there already.
def remember (row : Row) : Context :=
  let known : Context :=
    { c with
      origins := fun k =>
        if k = row.key then some ((c.origins k).getD row.owner?) else c.origins k
      singles := fun f =>
        if f ∈ row.finders then some ((c.singles f).getD (some row.key)) else c.singles f }
  known.setRow row

def rowsOf (keys : List Key) : List Row :=
  keys.filterMap c.rows

-- The row under its own key, if it is locked strongly enough.
def lockedRow? (kind : LockKind) (finder : Finder) : Option Row :=
  match finder.key? with
  | some key => if c.locks.holds key kind then c.rows key else none
  | none => none

-- The answer to a lookup under a lock, where the lock is held already.
def lockedAnswer? (kind : LockKind) (finder : Finder) : Option (Option Row) :=
  match c.singles finder with
  | some (some key) =>
    if c.locks.holds key kind then some (c.rows key)
    else (c.lockedRow? kind finder).map some
  | _ => (c.lockedRow? kind finder).map some

def lockedList? (kind : LockKind) (finder : Finder) : Option (List Row) :=
  match c.lists finder with
  | some keys => if keys.all (c.locks.holds · kind) then some (c.rowsOf keys) else none
  | none => none

def knownSingle? (finder : Finder) : Option (Option Row) :=
  (c.singles finder).map fun key => key.bind c.rows

def knownAnswer? (finder : Finder) : Option (Option Row) :=
  match c.knownSingle? finder with
  | some answer => some answer
  | none => (finder.key?.bind c.rows).map some

def knownList? (finder : Finder) : Option (List Row) :=
  (c.lists finder).map c.rowsOf

-- A lock on an absent row still guards its creation.
def learnLocked (kind : LockKind) (finder : Finder) (found : Option Row) : Context :=
  match found with
  | some row => ((c.remember row).lock row.key kind).setSingle finder (some row.key)
  | none =>
    match finder.key? with
    | some key => (c.lock key kind).setSingle finder none
    | none => c.setSingle finder none

def learnLockedList (kind : LockKind) (finder : Finder) (found : List Row) : Context :=
  (found.foldl (fun c row => (c.remember row).lock row.key kind) c).setList finder
    (found.map Row.key)

def learn (finder : Finder) (found : Option Row) : Context :=
  let known := c.setSingle finder (found.map Row.key)
  match found with
  | some row => known.remember row
  | none => known

def learnList (finder : Finder) (found : List Row) : Context :=
  (found.foldl remember c).setList finder (found.map Row.key)

-- The row no longer answers the lookups it answered.
def forgetAnswers (old : Row) : Context :=
  { c with singles := fun f => if f ∈ old.finders then some none else c.singles f }

def offerAnswers (row : Row) : Context :=
  { c with singles := fun f => if f ∈ row.finders then some (some row.key) else c.singles f }

-- A list is changed only if it has been read.
def changeList (finder : Option Finder) (change : List Key → List Key) : Context :=
  { c with
    lists := fun f => if some f = finder then (c.lists f).map change else c.lists f }

def without (key : Key) (keys : List Key) : List Key :=
  keys.filter (· ≠ key)

def remove (key : Key) : Context :=
  let forgotten := match c.rows key with
    | some old =>
      { c.forgetAnswers old with rows := fun k => if k = key then none else c.rows k }
    | none => c
  { forgotten with
    lists := fun f => (c.lists f).map (without key)
    changes := c.changes ++ [.remove key] }

def upsert (row : Row) : Context :=
  let moved := match c.rows row.key with
    | some old => (c.forgetAnswers old).changeList old.listFinder? (without row.key)
    | none => c
  let placed := (moved.offerAnswers row).changeList row.listFinder? (· ++ [row.key])
  { placed.setRow row with changes := c.changes ++ [.upsert row] }

def takeChanges : List Change × Context :=
  (c.changes, { c with changes := [] })

def writeLocked (key : Key) : Bool :=
  c.locks.kindOf? key = some .write

-- The owners whose locks guard a change: that of the row as first read, and that of the new row.
def guardsOf (change : Change) : List Key :=
  let before := (c.origins change.key).join
  let after := match change with
    | .upsert row => row.owner?
    | .remove _ => none
  if before = after then before.toList else before.toList ++ after.toList

-- A key whose missing write lock leaves the change uncovered.
def uncovered? (change : Change) : Option Key :=
  if c.writeLocked change.key then none
  else match c.guardsOf change with
    | [] => some change.key
    | guards => guards.find? (!c.writeLocked ·)

def coverage (change : Change) : Except Fault Unit :=
  match c.uncovered? change with
  | some guard =>
    let held := ((c.locks.kindOf? guard).map LockKind.text).getD "none"
    .error (.lockUpgrade change.key held)
  | none => .ok ()

def checkCoverage : Except Fault Unit :=
  c.changes.forM c.coverage

end Context

end NamespaceService
