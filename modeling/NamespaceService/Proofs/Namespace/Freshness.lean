import NamespaceService.Proofs.Concurrency.Alone
import NamespaceService.Proofs.Namespace.Hierarchy

namespace NamespaceService

open Program

namespace Request

variable {r : Request} {tx tx' : TxId}

theorem Reads.reader_eq (h : r.Reads tx) (htx : r.reader? = some tx') : tx' = tx := by
  cases h <;> simp_all [reader?, Store.Call.reader?]

theorem Closes.reader?_eq (h : r.Closes) : r.reader? = none := by
  cases h <;> rfl

theorem Silent.reader?_eq (h : r.Silent) : r.reader? = none := by
  cases r
  case log | report => rfl
  all_goals exact h.elim

end Request

namespace UnitOfWork

variable {α : Type} {config : TransactionConfig} {name operation : String}
  {requests : Except Fault RequestSet} {task : Resolved → Task α} {number left : Nat}
  {tx newest : TxId} {c : Context}

theorem rollback_knows : (rollback name c).Knows newest :=
  rollback_closes.knows fun r hr tx htx => by simp [hr.reader?_eq] at htx

theorem conclude_knows {r : Except Stop α × Context} : (conclude name r).Knows newest :=
  conclude_closes.knows fun r hr tx htx => by simp [hr.reader?_eq] at htx

theorem proceed_knows {again : Nat → Program (Except Stop α × Unit)} {e : AttemptEnd α}
    (h : ∀ left', left = left' + 1 → (again left').Knows newest) :
    (proceed name operation number left again e).Knows newest := by
  have hlog {level : Level} {message : String} : (Program.log level message).Knows newest :=
    ⟨fun _ htx => (by cases htx), fun _ => trivial⟩
  refine report_settles.knows_bind (fun r hr tx htx => by simp [hr.reader?_eq] at htx) fun _ _ => ?_
  cases e
  case committed => exact hlog.bind fun _ => trivial
  case aborted => exact hlog.bind fun _ => trivial
  case overflow => trivial
  case retryable fault =>
    refine hlog.bind fun _ => ?_
    obtain _ | left := left
    · exact hlog.bind fun _ => trivial
    · exact h left rfl

variable (hreads : ∀ resolved, Stage.Reads (task resolved))

include hreads

theorem transact_knows (htx : tx ≤ newest) :
    (transact config name (ofTask operation requests task) () tx).Knows newest := by
  rw [transact_ofTask]
  have hknown : ∀ r, Request.Reads tx r → ∀ tx', r.reader? = some tx' → tx' ≤ newest :=
    fun r hr tx' htx' => hr.reader_eq htx' ▸ htx
  refine ⟨fun _ htx => (by cases htx), fun _ => ?_⟩
  refine (lockRows_reads (.new tx)).knows_bind hknown fun (r, c) hc => ?_
  cases r
  case error => exact rollback_knows.bind fun _ => trivial
  case ok resolved =>
    have htask := hreads resolved c
    rw [show c.tx = tx from hc] at htask
    exact htask.knows_bind hknown fun _ _ => conclude_knows

theorem attempt_knows :
    (attempt config name (ofTask operation requests task) ()).Knows newest := by
  rw [attempt_ofTask]
  refine ⟨fun _ htx => (by cases htx), fun x => ?_⟩
  cases x
  case error => trivial
  case ok tx => exact transact_knows hreads (Nat.le_max_right ..)

theorem attempts_knows :
    (attempts config name (ofTask operation requests task) number left ()).Knows newest := by
  induction left generalizing number
  case zero =>
    rw [attempts_ofTask]
    exact (attempt_knows hreads).bind fun _ => proceed_knows fun _ h => by cases h
  case succ left ih =>
    rw [attempts_ofTask]
    refine (attempt_knows hreads).bind fun _ => proceed_knows fun _ h => ?_
    cases h
    exact ih

theorem execute_knows : ((ofTask name requests task).execute config ()).Knows newest := by
  rw [execute_ofTask]
  exact (attempts_knows hreads).claimedBy

end UnitOfWork

namespace Session.NamespaceOperation

variable {ι : Type} [DecidableEq ι] {world : World} {op : ι → NamespaceOperation}
  {config : ι → TransactionConfig} {schedule : List ι} {newest : TxId}

omit [DecidableEq ι] in
theorem execute_knows (i : ι) : ((op i).execute (config i)).Knows newest := by
  obtain ⟨α, name, requests, task, value, hexecute, hstraight⟩ := exists_task (op i) (config i)
  rw [hexecute]
  exact (UnitOfWork.execute_knows fun resolved => (hstraight resolved).reads).bind fun _ => trivial

theorem crewIn_fresh (hstart : world.store.Coherent) (hfresh : world.store.Fresh) (n : Nat) :
    ((crewIn world op config).after schedule n).world.store.Fresh :=
  have h : (crewIn world op config).Fresh := ⟨hfresh, execute_knows⟩
  (h.after (crewIn_orderly hstart) n).store

end Session.NamespaceOperation

end NamespaceService
