import NamespaceService.Proofs.Concurrency.Setbacks
import NamespaceService.Proofs.Transaction.Attempt

namespace NamespaceService

open Program

namespace Program

-- No commit is made, and the result is an error.
abbrev Fails {ε α : Type} : Program (Except ε α) → Prop :=
  Keeps Request.Harmless fun r => ∃ e, r = .error e

variable {kind : LockKind} {finder : Finder} {tx : TxId}

theorem begin_falters : Program.begin.Falters Fails := by
  intro x
  cases x
  case ok => exact ⟨nofun, trivial⟩
  case error fault => exact ⟨fun _ => ⟨fault, rfl⟩, trivial⟩

theorem lockedFind_falters : (lockedFind kind finder tx).Falters Fails := by
  intro x
  cases x
  case ok => exact ⟨nofun, fun _ => ⟨nofun, trivial⟩⟩
  case error fault => exact ⟨fun _ => ⟨fault, rfl⟩, trivial⟩

theorem lockedList_falters : (lockedList kind finder tx).Falters Fails := by
  intro x
  cases x
  case ok => exact ⟨nofun, fun _ => ⟨nofun, trivial⟩⟩
  case error fault => exact ⟨fun _ => ⟨fault, rfl⟩, trivial⟩

theorem snapshotFind_falters : (snapshotFind finder tx).Falters Fails := by
  intro x
  cases x
  case ok => exact ⟨nofun, trivial⟩
  case error fault => exact ⟨fun _ => ⟨fault, rfl⟩, trivial⟩

theorem snapshotList_falters : (snapshotList finder tx).Falters Fails := by
  intro x
  cases x
  case ok => exact ⟨nofun, trivial⟩
  case error fault => exact ⟨fun _ => ⟨fault, rfl⟩, trivial⟩

theorem probe_falters : (probe finder tx).Falters Fails :=
  fun _ => ⟨nofun, trivial⟩

theorem commit_falters {held : Nat} {changes : List Change} :
    (Program.commit tx held changes).Falters Fails := by
  intro x
  cases x
  case ok => exact ⟨nofun, fun _ => ⟨nofun, trivial⟩⟩
  case error refusal =>
    cases refusal
    case fault fault => exact ⟨fun _ => ⟨fault, rfl⟩, trivial⟩
    case stale => exact ⟨nofun, fun _ => ⟨nofun, trivial⟩⟩

end Program

namespace Stage

variable {ε α β : Type}

-- A fault is the end of the work.
def Breaks (m : Stage ε α) : Prop :=
  ∀ c, Program.Falters (Keeps Request.Harmless fun r => ∃ e, r.1 = .error e) (m c)

theorem Breaks.bind {m : Stage ε α} {f : α → Stage ε β} (hm : Breaks m) (hf : ∀ a, Breaks (f a)) :
    Breaks (m >>= f) := by
  intro c
  rw [bind_apply]
  refine (hm c).bind (fun q hq => hq.bind ?_) fun (r, c') => ?_
  · rintro ⟨_, c'⟩ ⟨e, rfl⟩
    exact ⟨e, rfl⟩
  · cases r
    case ok a => exact hf a c'
    case error => trivial

end Stage

namespace Action

variable {α : Type} {kind : LockKind} {finder : Finder}

theorem reading_breaks {known : Context → Option α} {ask : TxId → Program (Except Fault α)}
    {learn : Context → α → Context} (hask : ∀ tx, (ask tx).Falters Fails) :
    Stage.Breaks (reading finder known ask learn) := by
  intro c
  rw [reading]
  split
  case h_1 => trivial
  case h_2 =>
    split
    case isTrue => trivial
    case isFalse =>
      refine (hask c.tx).bind (fun q hq => hq.bind ?_) fun r => ?_
      · rintro _ ⟨fault, rfl⟩
        exact ⟨fault, rfl⟩
      · cases r <;> trivial

theorem commit_falters (c : Context) :
    (Action.commit c).Falters (Keeps Request.Harmless fun r => ∃ fault, r.1 = .error fault) := by
  rw [commit_eq]
  split
  case h_1 => trivial
  case h_2 =>
    refine Falters.bind .log (fun q hq => hq) fun _ => ?_
    refine Program.commit_falters.bind (fun q hq => hq.bind ?_) fun _ => trivial
    rintro _ ⟨fault, rfl⟩
    exact ⟨fault, rfl⟩

end Action

theorem Stage.Straight.breaks {ε α : Type} [FaultCarrier ε] {m : Stage ε α} (h : Straight m) :
    Breaks m := by
  induction h
  case pure => exact fun _ => trivial
  case throw => exact fun _ => trivial
  case bind hm hf => exact hm.bind hf
  case get ih => exact fun c => ih c c
  case log => exact fun _ _ => ⟨nofun, trivial⟩
  case lockFind => exact Action.reading_breaks fun _ => lockedFind_falters
  case lockList => exact Action.reading_breaks fun _ => lockedList_falters
  case probe => exact Action.reading_breaks fun _ => probe_falters
  case find => exact Action.reading_breaks fun _ => snapshotFind_falters
  case findList => exact Action.reading_breaks fun _ => snapshotList_falters
  case upsert => exact fun _ => trivial
  case remove => exact fun _ => trivial
  case endLockPhase => exact fun _ => trivial
  case lift α action _ ih =>
    intro c
    refine (ih c).bind (fun q hq => hq.bind ?_) fun (r, c') => ?_
    · rintro ⟨_, c'⟩ ⟨e, rfl⟩
      exact ⟨_, rfl⟩
    · cases r <;> trivial

namespace UnitOfWork

variable {α : Type} {config : TransactionConfig} {name operation : String}
  {requests : Except Fault RequestSet} {task : Resolved → Task α} {number left : Nat} {tx : TxId}
  {c : Context} {a : α}

theorem lockRows_breaks : Stage.Breaks (lockRows config name requests) := by
  cases requests
  case ok => exact (lockRows_straight fun _ h => by cases h).breaks
  case error =>
    rw [lockRows]
    split
    case isTrue => exact fun _ => trivial
    case isFalse => exact fun _ => trivial

-- An attempt that commits nothing any more.
abbrev Abandoned : Program (AttemptEnd α × Unit) → Prop :=
  Keeps Request.Harmless fun e => ∀ a, e.1 ≠ .committed a

theorem rollback_abandoned {e : AttemptEnd α} (he : ∀ a, e ≠ .committed a) :
    Abandoned (rollback name c >>= fun _ => done (e, ())) :=
  Keeps.bind rollback_ne_commit fun _ _ => he

theorem commit_falters : (commit name a c).Falters
    (Keeps Request.Harmless fun e => ∀ a, e ≠ .committed a) := by
  have hback (fault : Fault) (c : Context) : Keeps Request.Harmless
      (fun e : AttemptEnd α => ∀ a, e ≠ .committed a)
      (rollback name c >>= fun _ => done (.ofCommit fault)) :=
    Keeps.bind rollback_ne_commit fun _ _ a => ofCommit_ne (.inl ⟨a, rfl⟩)
  refine (Action.commit_falters c).bind (fun q hq => hq.bind ?_) fun (r, c') => ?_
  · rintro ⟨_, c'⟩ ⟨fault, rfl⟩
    exact hback fault c'
  · cases r
    case ok => trivial
    case error fault => exact .of_keeps (hback fault c')

theorem conclude_falters {r : Except Stop α × Context} : (conclude name r).Falters Abandoned := by
  obtain ⟨r, c⟩ := r
  cases r
  case ok a => exact commit_falters.bind (fun q hq => hq.bind fun _ he => he) fun _ => trivial
  case error stop =>
    cases stop
    case overflow => trivial
    case failed failure =>
      exact .of_keeps (rollback_abandoned (ofStop_eq rfl).1)

theorem conclude_abandoned {r : Except Stop α × Context} (h : ∃ stop, r.1 = .error stop) :
    Abandoned (conclude name r) := by
  obtain ⟨_, c⟩ := r
  obtain ⟨stop, rfl⟩ := h
  cases stop
  case overflow => exact nofun
  case failed failure => exact rollback_abandoned (ofStop_eq rfl).1

theorem attempt_falters (htask : ∀ resolved, Stage.Breaks (task resolved)) :
    (attempt config name (ofTask operation requests task) ()).Falters Abandoned := by
  have hunlocked (fault : Fault) (a : α) : AttemptEnd.ofLocking fault ≠ .committed a :=
    ofLocking_ne (.inl ⟨a, rfl⟩)
  rw [attempt_ofTask]
  refine begin_falters.bind (fun q hq => hq.bind ?_) fun r => ?_
  · rintro _ ⟨fault, rfl⟩
    exact hunlocked fault
  cases r
  case error => trivial
  case ok tx =>
    change (transact config name (ofTask operation requests task) () tx).Falters Abandoned
    rw [transact_ofTask]
    refine Falters.bind .log (fun q hq => hq) fun _ => ?_
    refine (lockRows_breaks (.new tx)).bind (fun q hq => hq.bind ?_) fun (r, c) => ?_
    · rintro ⟨_, c⟩ ⟨fault, rfl⟩
      exact rollback_abandoned (hunlocked fault)
    cases r
    case error fault => exact .of_keeps (rollback_abandoned (hunlocked fault))
    case ok resolved =>
      refine (htask resolved c).bind (fun q hq => hq.bind ?_) fun _ => conclude_falters
      exact fun r hr => conclude_abandoned hr

variable {again : Nat → Program (Except Stop α × Unit)}
  {Fresh : Program (Except Stop α × Unit) → Prop} {e : AttemptEnd α}

theorem report_harmless {outcome : Option AttemptOutcome} :
    (report operation number outcome).Keeps Request.Harmless fun _ => True :=
  report_settles.mono (fun _ => Request.Silent.harmless) fun _ => id

theorem proceed_returns (he : ∀ a, e ≠ .committed a)
    (hagain : ∀ left', left = left' + 1 → Fresh (again left')) :
    (proceed name operation number left again e).Returns Fresh fun r => ∀ a, r.1 ≠ .ok a := by
  have hlog {level : Level} {message : String} :
      (Program.log level message).Keeps Request.Harmless fun _ => True := .log nofun trivial
  refine .of_keeps report_harmless fun _ _ => ?_
  cases e
  case committed a => exact absurd rfl (he a)
  case aborted => exact .of_keeps hlog fun _ _ => .inr nofun
  case overflow => exact .inr nofun
  case retryable fault =>
    refine .of_keeps hlog fun _ _ => ?_
    obtain _ | left := left
    · exact .of_keeps hlog fun _ _ => .inr nofun
    · exact .of_fresh (hagain left rfl)

theorem proceed_falters {After : Program (Except Stop α × Unit) → Prop}
    (hagain : ∀ left', left = left' + 1 → (again left').Falters After) :
    (proceed name operation number left again e).Falters After := by
  have hreport : (report operation number e.outcome?).Falters fun _ => False :=
    .of_settles report_settles
  have hlog {level : Level} {message : String} :
      (Program.log level message).Falters fun _ => False := .log
  refine hreport.bind (fun _ => False.elim) fun _ => ?_
  cases e
  case committed => exact hlog.bind (fun _ => False.elim) fun _ => trivial
  case aborted => exact hlog.bind (fun _ => False.elim) fun _ => trivial
  case overflow => trivial
  case retryable fault =>
    refine hlog.bind (fun _ => False.elim) fun _ => ?_
    obtain _ | left := left
    · exact hlog.bind (fun _ => False.elim) fun _ => trivial
    · exact hagain left rfl

-- After a fault, all there is to come is another attempt.
theorem attempts_falters (htask : ∀ resolved, Stage.Breaks (task resolved)) :
    (attempts config name (ofTask operation requests task) number left ()).Falters
      (Returns (fun p => ∃ number left,
        p = attempts config name (ofTask operation requests task) number left ())
        fun r => ∀ a, r.1 ≠ .ok a) := by
  induction left generalizing number
  case zero =>
    rw [attempts_ofTask]
    refine (attempt_falters htask).bind (fun q hq => ?_) fun _ => proceed_falters nofun
    exact .of_keeps hq fun e he => proceed_returns he nofun
  case succ left ih =>
    rw [attempts_ofTask]
    refine (attempt_falters htask).bind (fun q hq => ?_) fun _ => proceed_falters fun _ h => ?_
    · exact .of_keeps hq fun e he => proceed_returns he fun left' _ => ⟨_, left', rfl⟩
    · cases h
      exact ih

end UnitOfWork

end NamespaceService
