import NamespaceService.Order.SortedBy
import NamespaceService.Row.Key

namespace NamespaceService

inductive LockKind
  | readCommitted
  | read
  | write
deriving DecidableEq, Inhabited

namespace LockKind

def strength : LockKind → Nat
  | readCommitted => 0
  | read => 1
  | write => 2

instance : LE LockKind := ⟨fun a b => a.strength ≤ b.strength⟩
instance : LT LockKind := ⟨fun a b => a.strength < b.strength⟩

instance (a b : LockKind) : Decidable (a ≤ b) :=
  inferInstanceAs (Decidable (a.strength ≤ b.strength))

instance (a b : LockKind) : Decidable (a < b) :=
  inferInstanceAs (Decidable (a.strength < b.strength))

instance : Max LockKind := ⟨fun a b => if a ≤ b then b else a⟩

def text : LockKind → String
  | readCommitted => "read-committed"
  | read => "read"
  | write => "write"

end LockKind

inductive NodeMode
  | readCommitted
  | read
  | write
  -- Exclusive on the parent directory, which guards adding, removing or replacing the leaf.
  | writeOnParent
deriving DecidableEq, Inhabited

namespace NodeMode

-- The kind taken when the locked node is the whole chain.
def requestedKind : NodeMode → LockKind
  | readCommitted => .readCommitted
  | read => .read
  | write | writeOnParent => .write

def leafKind : NodeMode → (isDirectory : Bool) → LockKind
  | readCommitted, _ => .readCommitted
  | read, _ => .read
  | write, _ => .write
  | writeOnParent, isDirectory => if isDirectory then .read else .write

-- The kind for the node at `level` of a chain of `levels` nodes; the root has level 0. Walks over
-- names and walks over ids both choose kinds by this rule.
def kindAt (mode : NodeMode) (level levels : Nat) (leafIsDirectory : Bool) : LockKind :=
  if level = levels - 1 then
    if level = 0 then mode.requestedKind else mode.leafKind leafIsDirectory
  else if mode = writeOnParent ∧ level + 1 = levels - 1 then .write
  else .readCommitted

end NodeMode

-- Categories of rows, in the order in which every transaction locks them.
inductive Category
  | node
  | block
  | lease
  | replica
  | replicaUnderConstruction
  | register
deriving DecidableEq, Inhabited

namespace Category

def all : List Category :=
  [node, block, lease, replica, replicaUnderConstruction, register]

def text : Category → String
  | node => "node"
  | block => "block"
  | lease => "lease"
  | replica => "replica"
  | replicaUnderConstruction => "replica-uc"
  | register => "variable"

def order : Category → Nat
  | node => 0
  | block => 1
  | lease => 2
  | replica => 3
  | replicaUnderConstruction => 4
  | register => 5

instance : Ranked Category where
  rank c := [c.order]
  rank_injective {a b} h := by cases a <;> cases b <;> simp_all [order]

end Category

end NamespaceService
