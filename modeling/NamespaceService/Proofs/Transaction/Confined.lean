import NamespaceService.Proofs.Concurrency.Requests
import NamespaceService.Proofs.Transaction.Lookups

namespace NamespaceService

namespace Request

-- Requests of a transaction that leave rows and versions as they are.
inductive Reads (tx : TxId) : Request → Prop
  | find (kind : LockKind) (finder : Finder) : Reads tx (.store (.find tx kind finder))
  | findList (kind : LockKind) (finder : Finder) : Reads tx (.store (.findList tx kind finder))
  | probe (finder : Finder) : Reads tx (.store (.probe tx finder))
  | log (line : LogLine) : Reads tx (.log line)

end Request

namespace Context

variable {c : Context} {kind : LockKind} {finder : Finder} {row : Row} {key : Key}

theorem foldl_tx {α : Type} {f : Context → α → Context} {l : List α}
    (hf : ∀ c a, (f c a).tx = c.tx) : (l.foldl f c).tx = c.tx := by
  induction l generalizing c
  case nil => rfl
  case cons a l ih => exact ih.trans (hf c a)

theorem learn_tx {found : Option Row} : (c.learn finder found).tx = c.tx := by
  cases found <;> rfl

theorem learnList_tx {found : List Row} : (c.learnList finder found).tx = c.tx :=
  foldl_tx fun _ _ => rfl

theorem learnLocked_tx {found : Option Row} : (c.learnLocked kind finder found).tx = c.tx := by
  cases found
  case some => rfl
  case none =>
    rw [learnLocked]
    split <;> rfl

theorem learnLockedList_tx {found : List Row} : (c.learnLockedList kind finder found).tx = c.tx :=
  foldl_tx fun _ _ => rfl

theorem upsert_tx : (c.upsert row).tx = c.tx := by
  rw [upsert]
  split <;> rfl

theorem remove_tx : (c.remove key).tx = c.tx := by
  rw [remove]
  split <;> rfl

end Context

-- The work touches the store only by locking, reading, adding, changing and removing rows through
-- the context. What it makes of an answer is its own affair.
inductive Confined : {β : Type} → StateT Context Program β → Prop
  | pure {β : Type} (b : β) : Confined (pure b)
  | bind {β γ : Type} {m : StateT Context Program β} {f : β → StateT Context Program γ}
    (hm : Confined m) (hf : ∀ b, Confined (f b)) : Confined (m >>= f)
  | get : Confined (get : StateT Context Program Context)
  | log (level : Level) (message : String) : Confined (Action.log level message).run
  | lockFind (kind : LockKind) (finder : Finder) : Confined (Action.lockFind kind finder).run
  | lockList (kind : LockKind) (finder : Finder) : Confined (Action.lockList kind finder).run
  | probe (finder : Finder) : Confined (Action.probe finder).run
  | find (finder : Finder) : Confined (Action.find finder).run
  | findList (finder : Finder) : Confined (Action.findList finder).run
  | upsert (row : Row) : Confined (Action.upsert row).run
  | remove (key : Key) : Confined (Action.remove key).run
  | endLockPhase : Confined Action.endLockPhase.run

namespace Action

open Program

variable {c : Context} {finder : Finder} {kind : LockKind}

theorem reading_keeps {α : Type} {known : Context → Option α}
    {ask : TxId → Program (Except Fault α)} {learn : Context → α → Context}
    (hask : (ask c.tx).Only (Request.Reads c.tx)) (hlearn : ∀ a, (learn c a).tx = c.tx) :
    Keeps (Request.Reads c.tx) (·.2.tx = c.tx) (reading finder known ask learn c) := by
  rw [reading]
  split
  case h_1 => rfl
  case h_2 =>
    split
    case isTrue => rfl
    case isFalse =>
      refine Keeps.bind hask fun r _ => ?_
      cases r
      case ok a => exact hlearn a
      case error => rfl

theorem lockFind_keeps : Keeps (Request.Reads c.tx) (·.2.tx = c.tx) (lockFind kind finder c) := by
  refine reading_keeps (Only.bind (.call (.find kind finder)) fun r => ?_) fun _ =>
    Context.learnLocked_tx
  cases r
  case error => trivial
  case ok => exact Only.bind (.log .log) fun _ => trivial

theorem lockList_keeps : Keeps (Request.Reads c.tx) (·.2.tx = c.tx) (lockList kind finder c) := by
  refine reading_keeps (Only.bind (.call (.findList kind finder)) fun r => ?_) fun _ =>
    Context.learnLockedList_tx
  cases r
  case error => trivial
  case ok => exact Only.bind (.log .log) fun _ => trivial

theorem probe_keeps : Keeps (Request.Reads c.tx) (·.2.tx = c.tx) (probe finder c) :=
  reading_keeps (Only.bind (.call (.probe finder)) fun _ => trivial) fun _ => rfl

theorem find_keeps : Keeps (Request.Reads c.tx) (·.2.tx = c.tx) (find finder c) :=
  reading_keeps (.call (.find .readCommitted finder)) fun _ => Context.learn_tx

theorem findList_keeps : Keeps (Request.Reads c.tx) (·.2.tx = c.tx) (findList finder c) :=
  reading_keeps (.call (.findList .readCommitted finder)) fun _ => Context.learnList_tx

theorem log_keeps {level : Level} {message : String} :
    Keeps (Request.Reads c.tx) (·.2.tx = c.tx) (log level message c) :=
  have hlog : (Program.log level message).Only (Request.Reads c.tx) := .log .log
  Keeps.bind hlog fun _ _ => rfl

end Action

namespace Confined

open Program

variable {β : Type} {m : StateT Context Program β}

theorem keeps (h : Confined m) (c : Context) :
    Keeps (Request.Reads c.tx) (·.2.tx = c.tx) (m c) := by
  induction h generalizing c
  case bind hm hf =>
    refine Keeps.bind (hm c) fun (b, c') hc => ?_
    rw [← hc]
    exact hf b c'
  case log => exact Action.log_keeps
  case lockFind => exact Action.lockFind_keeps
  case lockList => exact Action.lockList_keeps
  case probe => exact Action.probe_keeps
  case find => exact Action.find_keeps
  case findList => exact Action.findList_keeps
  case upsert => exact Context.upsert_tx
  case remove => exact Context.remove_tx
  all_goals rfl

end Confined

-- Another attempt would end the same way.
def Stop.Lasts : Stop → Prop
  | .failed (.store fault) => ¬fault.isTransient
  | .failed (.retriesExhausted ..) => False
  | _ => True

-- Failures that a fault of the store is one of, and those that last.
class FaultCarrier (ε : Type) where
  ofFault : Fault → ε
  Lasts : ε → Prop

instance : FaultCarrier Fault where
  ofFault := id
  Lasts fault := ¬fault.isTransient

instance : FaultCarrier Stop where
  ofFault fault := .failed (.store fault)
  Lasts := Stop.Lasts

namespace Stage

variable {ε α β : Type}

def Reads (m : Stage ε α) : Prop :=
  ∀ c, Program.Keeps (Request.Reads c.tx) (fun r => r.2.tx = c.tx) (m c)

namespace Reads

theorem pure {a : α} : Reads (pure a : Stage ε α) :=
  fun _ => rfl

end Reads

-- The number of the transaction makes no difference to straight work, and its own failures last.
inductive Straight : {ε α : Type} → [FaultCarrier ε] → Stage ε α → Prop
  | pure {ε α : Type} [FaultCarrier ε] {a : α} : Straight (pure a : Stage ε α)
  | throw {ε α : Type} [FaultCarrier ε] {e : ε} (he : FaultCarrier.Lasts e) :
    Straight (throw e : Stage ε α)
  | bind {ε α β : Type} [FaultCarrier ε] {m : Stage ε α} {f : α → Stage ε β} (hm : Straight m)
    (hf : ∀ a, Straight (f a)) : Straight (m >>= f)
  | get {ε α : Type} [FaultCarrier ε] {f : Context → Stage ε α} (hf : ∀ c, Straight (f c))
    (htx : ∀ c tx, f { c with tx } = f c) : Straight (get >>= f)
  | log {level : Level} {message : String} : Straight (Action.log level message)
  | lockFind {kind : LockKind} {finder : Finder} : Straight (Action.lockFind kind finder)
  | lockList {kind : LockKind} {finder : Finder} : Straight (Action.lockList kind finder)
  | probe {finder : Finder} : Straight (Action.probe finder)
  | find {finder : Finder} : Straight (Action.find finder)
  | findList {finder : Finder} : Straight (Action.findList finder)
  | upsert {row : Row} : Straight (Action.upsert row)
  | remove {key : Key} : Straight (Action.remove key)
  | endLockPhase : Straight Action.endLockPhase
  | lift {α : Type} {action : Action α} (h : Straight action) : Straight (liftM action : Task α)

namespace Straight

variable [FaultCarrier ε] {m m' : Stage ε α}

theorem lift_run {action : Action α} : (liftM action : Task α).run = action.run >>= fun
    | .ok a => Pure.pure (.ok a)
    | .error fault => Pure.pure (.error (.failed (.store fault))) := by
  refine funext fun c => congrArg (Program.bind (action c)) (funext fun (r, _) => ?_)
  cases r <;> rfl

theorem confined (h : Straight m) : Confined m.run := by
  induction h
  case pure a => exact .pure (Except.ok a)
  case throw e _ => exact .pure (Except.error e)
  case bind hm hf =>
    refine .bind hm fun r => ?_
    cases r
    case ok a => exact hf a
    case error e => exact .pure (Except.error e)
  case get ih => exact Confined.bind (m := MonadState.get) .get ih
  case log => exact .log ..
  case lockFind => exact .lockFind ..
  case lockList => exact .lockList ..
  case probe => exact .probe _
  case find => exact .find _
  case findList => exact .findList _
  case upsert => exact .upsert _
  case remove => exact .remove _
  case endLockPhase => exact .endLockPhase
  case lift h =>
    rw [lift_run]
    refine .bind h fun r => ?_
    cases r <;> exact .pure _

theorem reads (h : Straight m) : Reads m :=
  h.confined.keeps

theorem ite {p : Prop} [Decidable p] (hm : Straight m) (hm' : Straight m') :
    Straight (if p then m else m') := by
  split
  case isTrue => exact hm
  case isFalse => exact hm'

theorem forM {f : α → Stage ε PUnit} {l : List α} (hf : ∀ a, Straight (f a)) :
    Straight (l.forM f) := by
  induction l
  case nil => exact .pure
  case cons a l ih => exact (hf a).bind fun _ => ih

theorem ofExcept {result : Except Fault α}
    (h : ∀ fault, result = .error fault → ¬fault.isTransient) : Straight (Action.ofExcept result) := by
  cases result
  case ok a => exact .pure
  case error fault => exact .throw (h fault rfl)

end Straight

end Stage

end NamespaceService
