import NamespaceService.Fault
import NamespaceService.Store.Finder

namespace NamespaceService

abbrev TxId := Nat

abbrev Rows := SortedBy Row.key

namespace Rows

def lookup (rows : Rows) (finder : Finder) : Option Row :=
  rows.toList.find? finder.selects

def lookupList (rows : Rows) (finder : Finder) : List Row :=
  rows.toList.filter finder.lists

end Rows

inductive Event
  | begin (tx : TxId)
  | find (tx : TxId) (kind : LockKind) (finder : Finder)
  | findList (tx : TxId) (kind : LockKind) (finder : Finder)
  | probe (tx : TxId) (finder : Finder)
  | commit (tx : TxId) (changes : Nat)
  | rollback (tx : TxId)
deriving DecidableEq, Inhabited

namespace Event

-- The lookup under a lock that the event records.
def acquisition? : Event → Option (LockKind × Finder)
  | .find _ kind finder | .findList _ kind finder => some (kind, finder)
  | _ => none

end Event

-- Operations of the store that faults can be queued for.
inductive Operation
  | begin
  | find
  | commit
  | rollback
deriving DecidableEq, Inhabited

-- Why a commit did not happen: a queued fault, or a row that changed since it was read.
inductive CommitRefusal
  | fault (fault : Fault)
  | stale (key : Key)
deriving DecidableEq

def CommitRefusal.toFault : CommitRefusal → Fault
  | .fault f => f
  | .stale key => .conflict s!"{key.text} changed since it was read"

-- The committed rows, a version for every key and, for every transaction, the versions of the rows
-- that were read under a lock. A commit is refused if one of these has moved since. Every call is
-- recorded, and faults can be queued for each operation.
@[ext]
structure Store where
  rows : Rows
  version : Key → Nat
  -- Versions first seen by each transaction, in the order of the reads.
  observed : TxId → List (Key × Nat)
  events : List Event
  faults : Operation → List Fault
  -- How many transactions were begun; they are numbered from 1.
  begun : Nat

namespace Store

-- The root directory and the three counters.
def new : Store where
  rows := .ofList [
    .node .root,
    .register ⟨.nodeIdCounter, 0⟩,
    .register ⟨.blockIdCounter, 0⟩,
    .register ⟨.generationStamp, 1000⟩]
  version _ := 0
  observed _ := []
  events := []
  faults _ := []
  begun := 0

instance : Inhabited Store := ⟨new⟩

def record (s : Store) (event : Event) : Store :=
  { s with events := s.events ++ [event] }

-- Runs `act`, unless a fault is queued for `operation`: then the fault is the answer.
def guarded {ε α : Type} (s : Store) (operation : Operation) (onFault : Fault → ε)
    (act : Except ε α × Store) : Except ε α × Store :=
  match s.faults operation with
  | [] => act
  | fault :: rest =>
    (.error (onFault fault),
      { s with faults := fun o => if o = operation then rest else s.faults o })

def begin (s : Store) : Except Fault TxId × Store :=
  s.guarded .begin id
    (.ok (s.begun + 1), { s.record (.begin (s.begun + 1)) with begun := s.begun + 1 })

-- Only the first version that a transaction sees of a key counts.
def observe (s : Store) (tx : TxId) (kind : LockKind) (key : Key) : Store :=
  if kind = .readCommitted ∨ (s.observed tx).any (·.1 = key) then s
  else
    { s with
      observed := fun t =>
        if t = tx then s.observed tx ++ [(key, s.version key)] else s.observed t }

-- The key a lookup of one row rests on: the row's, or that of the missing row.
def restsOn? (finder : Finder) (found : Option Row) : Option Key :=
  match found with
  | some row => some row.key
  | none => finder.key?

def find (s : Store) (tx : TxId) (kind : LockKind) (finder : Finder) :
    Except Fault (Option Row) × Store :=
  let found := s.rows.lookup finder
  let asked := s.record (.find tx kind finder)
  s.guarded .find id (.ok found,
    match restsOn? finder found with
    | some key => asked.observe tx kind key
    | none => asked)

def findList (s : Store) (tx : TxId) (kind : LockKind) (finder : Finder) :
    Except Fault (List Row) × Store :=
  let found := s.rows.lookupList finder
  s.guarded .find id (.ok found,
    found.foldl (fun s row => s.observe tx kind row.key) (s.record (.findList tx kind finder)))

-- A lookup that takes no lock and that no commit rests on.
def probe (s : Store) (tx : TxId) (finder : Finder) : Option Row × Store :=
  (s.rows.lookup finder, s.record (.probe tx finder))

def bump (s : Store) (key : Key) : Store :=
  { s with version := fun k => if k = key then s.version k + 1 else s.version k }

def bumpOwner (s : Store) (row : Row) : Store :=
  match row.owner? with
  | some owner => s.bump owner
  | none => s

def put (s : Store) (row : Row) : Store :=
  { s with rows := s.rows.insert row }

-- A change moves the version of the changed row, and of the row it is or was an entry of.
def apply (s : Store) : Change → Store
  | .upsert row => ((s.bumpOwner row).bump row.key).put row
  | .remove key =>
    let guardOwner := match s.rows.find? key with
      | some old => s.bumpOwner old
      | none => s
    { guardOwner.bump key with rows := s.rows.erase key }

def stale? (s : Store) (tx : TxId) : Option Key :=
  ((s.observed tx).find? fun (key, version) => s.version key ≠ version).map Prod.fst

def commit (s : Store) (tx : TxId) (changes : List Change) : Except CommitRefusal Unit × Store :=
  s.guarded .commit .fault <|
    match s.stale? tx with
    | some key => (.error (.stale key), s)
    | none => (.ok (), (changes.foldl apply s).record (.commit tx changes.length))

def rollback (s : Store) (tx : TxId) : Except Fault Unit × Store :=
  s.guarded .rollback id (.ok (), s.record (.rollback tx))

inductive Call
  | begin
  | find (tx : TxId) (kind : LockKind) (finder : Finder)
  | findList (tx : TxId) (kind : LockKind) (finder : Finder)
  | probe (tx : TxId) (finder : Finder)
  | commit (tx : TxId) (changes : List Change)
  | rollback (tx : TxId)

def Call.Response : Call → Type
  | .begin => Except Fault TxId
  | .find .. => Except Fault (Option Row)
  | .findList .. => Except Fault (List Row)
  | .probe .. => Option Row
  | .commit .. => Except CommitRefusal Unit
  | .rollback _ => Except Fault Unit

def answer (s : Store) : (call : Call) → call.Response × Store
  | .begin => s.begin
  | .find tx kind finder => s.find tx kind finder
  | .findList tx kind finder => s.findList tx kind finder
  | .probe tx finder => s.probe tx finder
  | .commit tx changes => s.commit tx changes
  | .rollback tx => s.rollback tx

end Store

end NamespaceService
