import NamespaceService.Guards
import NamespaceService.Log
import NamespaceService.Store.Command

namespace NamespaceService

inductive AttemptOutcome
  | committed
  | rolledBack (retryable : Bool)
deriving DecidableEq, Inhabited

structure AttemptReport where
  operation : String
  attempt : Nat
  outcome : AttemptOutcome
deriving DecidableEq, Inhabited

inductive Request
  | store (call : Store.Call)
  | direct (command : Store.Command)
  | log (line : LogLine)
  | report (report : AttemptReport)
  | lockStorage (storage : String)
  | unlockStorage (lock : LockId)
  | lockCoarse (mode : CoarseMode)
  | unlockCoarse (mode : CoarseMode)
  | coarseIsFree
  | storageCount

def Request.Response : Request → Type
  | .store call => call.Response
  | .direct _ => Option Store.Reply
  | .lockStorage _ => LockId
  | .coarseIsFree => Bool
  | .storageCount => Nat
  | .log _ | .report _ | .unlockStorage _ | .lockCoarse _ | .unlockCoarse _ => Unit

-- A program asks for one thing after another and goes on with the answer, so other programs can
-- take their turn between any two requests.
inductive Program (α : Type)
  | done (value : α)
  | ask (request : Request) (next : request.Response → Program α)

namespace Program

variable {α β : Type}

def bind : Program α → (α → Program β) → Program β
  | done a, f => f a
  | ask r next, f => ask r fun x => (next x).bind f

instance : Monad Program where
  pure := done
  bind := bind

@[simp]
theorem pure_eq (a : α) : (pure a : Program α) = done a :=
  rfl

@[simp]
theorem done_bind (a : α) (f : α → Program β) : done a >>= f = f a :=
  rfl

@[simp]
theorem ask_bind (r : Request) (next : r.Response → Program α) (f : α → Program β) :
    ask r next >>= f = ask r fun x => next x >>= f :=
  rfl

theorem bind_done (p : Program α) : p >>= done = p := by
  induction p with
  | done a => rfl
  | ask r next ih => simp [ih]

theorem bind_assoc {γ : Type} (p : Program α) (f : α → Program β) (g : β → Program γ) :
    (p >>= f) >>= g = p >>= fun a => f a >>= g := by
  induction p with
  | done a => rfl
  | ask r next ih => simp [ih]

instance : LawfulMonad Program :=
  LawfulMonad.mk' Program bind_done done_bind bind_assoc

def call (c : Store.Call) : Program c.Response :=
  ask (.store c) done

def log (level : Level) (message : String) : Program Unit :=
  ask (.log { level, message }) done

-- The log lines of the program belong to `name`, unless a unit of work further in claims them.
def claimedBy (name : String) : Program α → Program α
  | done a => done a
  | ask (.log line) next => ask (.log (line.claimedBy name)) fun x => (next x).claimedBy name
  | ask r next => ask r fun x => (next x).claimedBy name

end Program

-- All that programs share: the store, the guards, and what was reported and logged so far.
structure World where
  store : Store
  coarse : CoarseLock := {}
  storages : StorageLocks := {}
  reports : List AttemptReport := []
  log : List LogLine := []

namespace World

-- Answers one request. There is no answer while the request has to wait for a guard.
def perform (w : World) : (r : Request) → Option (r.Response × World)
  | .store call =>
    let (response, store) := w.store.answer call
    some (response, { w with store })
  | .direct command =>
    let (reply, store) := w.store.run command
    some (reply, { w with store })
  | .log line => some ((), { w with log := w.log ++ [line] })
  | .report report => some ((), { w with reports := w.reports ++ [report] })
  | .lockStorage storage =>
    match w.storages.acquire storage with
    | (some lock, storages) => some (lock, { w with storages })
    | (none, _) => none
  | .unlockStorage lock => some ((), { w with storages := w.storages.release lock })
  | .lockCoarse mode => (w.coarse.acquire? mode).map fun coarse => ((), { w with coarse })
  | .unlockCoarse mode => some ((), { w with coarse := w.coarse.release mode })
  | .coarseIsFree => some (w.coarse.isFree, w)
  | .storageCount => some (w.storages.size, w)

end World

namespace Program

variable {α β : Type}

-- Runs the program with nothing in between. There is no result if it waits for ever.
def run : Program α → World → Option (α × World)
  | done a, w => some (a, w)
  | ask r next, w =>
    match w.perform r with
    | some (x, w) => (next x).run w
    | none => none

@[simp]
theorem run_done (a : α) (w : World) : (done a).run w = some (a, w) :=
  rfl

theorem run_bind (p : Program α) (f : α → Program β) (w : World) :
    (p >>= f).run w = (p.run w).bind fun (a, w) => (f a).run w := by
  induction p generalizing w with
  | done a => rfl
  | ask r next ih =>
    simp only [ask_bind, run]
    cases w.perform r with
    | none => rfl
    | some x => exact ih x.1 x.2

end Program

end NamespaceService
