import NamespaceService.Proofs.Concurrency.Alone
import NamespaceService.Proofs.Namespace.Attempts
import NamespaceService.Proofs.Namespace.Tree

namespace NamespaceService

namespace Store

variable {rows : Rows} {tx : TxId} {s s' : Store}

-- No fault is queued, and a transaction that is still to begin has nothing observed.
structure Calm (s : Store) : Prop where
  coherent : s.Coherent
  fresh : s.Fresh

theorem Calm.new : Store.new.Calm :=
  ⟨.new, .new⟩

-- A transaction reads the rows, and nothing that it has observed has changed.
structure Serving (rows : Rows) (tx : TxId) (s : Store) : Prop extends Calm s where
  rows_eq : s.rows = rows
  begun : tx ≤ s.begun
  current {key : Key} {version : Nat} : (key, version) ∈ s.observed tx → s.version key = version

theorem Calm.begin (h : s.Calm) (hrows : s.rows = rows) :
    ∃ s', s.answer .begin = (.ok (s.begun + 1), s') ∧ Serving rows (s.begun + 1) s' := by
  have hnext := h.coherent.answer .begin
  have hfresh := h.fresh.answer h.coherent fun _ (htx : Call.reader? .begin = some _) => by cases htx
  rw [answer, begin_eq h.coherent] at hnext hfresh
  refine ⟨_, begin_eq h.coherent, ⟨hnext.2, hfresh⟩, hrows, le_rfl, fun {key version} hread => ?_⟩
  exact absurd (h.fresh _ _ hread) (by simp)

-- A read leaves everything that matters to the transaction as it is.
theorem Serving.answer (h : Serving rows tx s) {call : Call}
    (hcall : ∀ tx' changes, call ≠ .commit tx' changes)
    (hreader : ∀ tx', call.reader? = some tx' → tx' = tx) : Serving rows tx (s.answer call).2 := by
  obtain ⟨hrows, hversion⟩ | ⟨tx', changes, rfl, -⟩ := h.coherent.answer_same call
  · refine ⟨⟨(h.coherent.answer call).2, ?_⟩, hrows.trans h.rows_eq, ?_, fun {key version} hread => ?_⟩
    · exact h.fresh.answer h.coherent fun tx' htx => hreader tx' htx ▸ h.begun
    · exact h.begun.trans (h.coherent.begun_le_answer call)
    · rw [hversion]
      obtain hread | ⟨-, heq⟩ := h.coherent.answer_observed hread
      · exact h.current hread
      · exact heq.symm
  · exact absurd rfl (hcall tx' changes)

theorem Calm.rollback (h : s.Calm) (tx : TxId) :
    ∃ s', s.answer (.rollback tx) = (.ok (), s') ∧ s'.Calm ∧ s'.rows = s.rows := by
  have hnext := h.coherent.answer (.rollback tx)
  have hfresh := h.fresh.answer h.coherent
    fun _ (htx : (Call.rollback tx).reader? = some _) => by cases htx
  rw [Store.answer, rollback_eq h.coherent] at hnext hfresh
  exact ⟨_, rollback_eq h.coherent, ⟨hnext.2, hfresh⟩, rfl⟩

-- The commit of a transaction that has been alone is accepted.
theorem Serving.commit (h : Serving rows tx s) (changes : List Change) :
    ∃ s', s.answer (.commit tx changes) = (.ok (), s') ∧ s'.Calm ∧
      s'.rows = rows.applyAll changes := by
  have hok : (s.commit tx changes).1 = .ok () :=
    (commit_eq_ok_iff h.coherent).mpr fun _ _ => h.current
  have hfresh := h.fresh.answer h.coherent
    fun _ (htx : (Call.commit tx changes).reader? = some _) => by cases htx
  refine ⟨_, Prod.ext hok rfl, ⟨(h.coherent.answer _).2, hfresh⟩, ?_⟩
  change (s.commit tx changes).2.rows = _
  rw [commit_of_ok h.coherent hok, record_rows, foldl_apply_rows, h.rows_eq]
  rfl

end Store

theorem World.serves_answer {s : Store} {call : Store.Call} {x : call.Response}
    (h : (s.answer call).1 = x) : Serves s (s.answer call).2 (.store call) x :=
  Prod.ext h rfl

namespace Program

variable {α : Type} {p : Program α} {s s' : Store} {rows : Rows} {tx : TxId} {a : α}

-- Reading leaves everything that matters to the transaction as it is.
theorem RunsAlone.serving {Good : α → Prop} (h : p.RunsAlone s a s')
    (hp : p.Keeps (Request.Reads tx) Good) (hs : s.Serving rows tx) :
    s'.Serving rows tx ∧ Good a := by
  induction p generalizing s
  case done =>
    obtain ⟨rfl, rfl⟩ := h
    exact ⟨hs, hp⟩
  case ask r next ih =>
    have ⟨x, s₁, hx, hnext⟩ := h
    refine ih x hnext (hp.2 x) ?_
    cases hp.1
    case log => exact (show s₁ = s from hx) ▸ hs
    case find | findList =>
      rw [← show _ = s₁ from congrArg Prod.snd hx]
      exact hs.answer (by simp) fun tx' htx => (Option.some.inj htx).symm
    case probe =>
      rw [← show _ = s₁ from congrArg Prod.snd hx]
      exact hs.answer (by simp) fun tx' htx => by cases htx

-- Lookups are answered by the rows of the store.
theorem Yields.runsAlone (h : p.Yields (some rows) a) (hs : s.Coherent) (hrows : s.rows = rows) :
    ∃ s', p.RunsAlone s a s' := by
  induction h generalizing s
  case done a => exact ⟨s, .done⟩
  case log ih =>
    have ⟨s', hnext⟩ := ih hs hrows
    exact ⟨s', (), s, rfl, hnext⟩
  case find tx kind finder next _ heq _ ih =>
    cases heq
    have hfound : (s.answer (.find tx kind finder)).1 = .ok (s.rows.lookup finder) :=
      congrArg Prod.fst (Store.find_eq hs)
    rw [hrows] at hfound
    have ⟨s', hnext⟩ := ih (hs.answer (.find tx kind finder)).2 ((Store.find_rows hs).trans hrows)
    exact ⟨s', .ask (World.serves_answer hfound) hnext⟩
  case findList tx kind finder next _ heq _ ih =>
    cases heq
    have hfound : (s.answer (.findList tx kind finder)).1 = .ok (s.rows.lookupList finder) :=
      congrArg Prod.fst (Store.findList_eq hs)
    rw [hrows] at hfound
    have ⟨s', hnext⟩ :=
      ih (hs.answer (.findList tx kind finder)).2 ((Store.findList_rows hs).trans hrows)
    exact ⟨s', .ask (World.serves_answer hfound) hnext⟩

theorem Settles.runsAlone {Good : α → Prop} (h : p.Settles Good) (s : Store) :
    ∃ a, p.RunsAlone s a s ∧ Good a := by
  induction p
  case done a => exact ⟨a, .done, h⟩
  case ask r next ih =>
    cases r
    case log line =>
      have ⟨a, hnext, hgood⟩ := ih () (h.2 ())
      exact ⟨a, ⟨(), s, rfl, hnext⟩, hgood⟩
    case report report =>
      have ⟨a, hnext, hgood⟩ := ih () (h.2 ())
      exact ⟨a, ⟨(), s, rfl, hnext⟩, hgood⟩
    all_goals exact h.1.elim

end Program

theorem Context.covered?_eq_error {c : Context} {fault : Fault} (h : c.covered? = .error fault) :
    ∃ key held, fault = .lockUpgrade key held := by
  have hall : ∀ changes : List Change, changes.forM c.coverage = .error fault →
      ∃ key held, fault = .lockUpgrade key held := by
    intro changes h
    induction changes
    case nil => cases h
    case cons change changes ih =>
      replace h : (c.coverage change >>= fun _ => changes.forM c.coverage) = .error fault := h
      cases hfirst : c.coverage change
      case ok =>
        rw [hfirst] at h
        exact ih h
      case error first =>
        rw [hfirst] at h
        cases h
        rw [coverage] at hfirst
        split at hfirst <;> cases hfirst
        exact ⟨_, _, rfl⟩
  rw [covered?] at h
  split at h
  case isTrue => exact hall c.changes h
  case isFalse => cases h

namespace UnitOfWork

open Namespace Program Stage

variable {α : Type} {σ : Timeline} {config : TransactionConfig} {name operation : String}
  {requests : Except Fault RequestSet} {task : Resolved → Task α} {t u number left : Nat}
  {tx : TxId} {c c' : Context} {rows : Rows} {s s' : Store} {outcome : Except Stop (Effect α)}
  {r : Except Stop α} {x : Except Fault (Except Stop α)}

-- The rows that an outcome leaves.
def rowsAfter (rows : Rows) : Except Stop (Effect α) → Rows
  | .ok effect => rows.applyAll effect.changes
  | .error _ => rows

-- An attempt up to the end of its task.
def search (config : TransactionConfig) (name : String) (requests : Except Fault RequestSet)
    (task : Resolved → Task α) : Program (Except Fault (Except Stop α) × Context) := do
  match ← Program.begin with
  | .error fault => return (.error fault, .new 0)
  | .ok tx => do
    Program.log .debug s!"{name} tx started"
    match ← lockRows config name requests (.new tx) with
    | (.error fault, c) => return (.error fault, c)
    | (.ok resolved, c) => do
      let (r, c) ← task resolved c
      return (.ok r, c)

-- What the search comes to, if nothing that was read changes until the commit.
def verdict : Except Fault (Except Stop α) → Context → Except Stop (Effect α)
  | .error fault, _ =>
    .error (.failed (if fault.isTransient ∨ fault.isContractViolation then .store fault
      else .lockAcquire fault))
  | .ok (.error stop), _ => .error stop
  | .ok (.ok a), c =>
    match c.covered? with
    | .ok () => .ok ⟨a, c.changes⟩
    | .error fault => .error (.failed (.store fault))

def endOf : Except Stop (Effect α) → AttemptEnd α
  | .ok effect => .committed effect.result
  | .error (.failed failure) => .aborted failure
  | .error .overflow => .overflow

namespace Attempted.Planned

variable {o : Attempted σ config name requests task t} (h : o.Planned outcome)

include h

theorem verdict_eq (hcovered : ∀ effect, outcome = .ok effect → o.finish.covered? = .ok ()) :
    verdict (.ok o.result) o.finish = outcome := by
  rw [h.result]
  cases houtcome : outcome
  case error => rfl
  case ok effect => simp only [Except.map, verdict, hcovered effect houtcome, h.changes houtcome]

theorem verdict_uncovered {effect : Effect α} {fault : Fault} (houtcome : outcome = .ok effect)
    (hcovered : o.finish.covered? = .error fault) :
    verdict (.ok o.result) o.finish = .error (.failed (.store fault)) := by
  rw [h.result, houtcome]
  simp only [Except.map, verdict, hcovered]

end Attempted.Planned

theorem rollback_alone (name : String) (c : Context) (hs : s.Calm) :
    ∃ s', (rollback name c).RunsAlone s () s' ∧ s'.Calm ∧ s'.rows = s.rows :=
  have ⟨s', hok, hs'⟩ := hs.rollback c.tx
  ⟨s', .ask (x := .ok ()) hok .done, hs'⟩

theorem commit_alone (name : String) (a : α) (hs : s.Serving rows c.tx) :
    ∃ s', (commit name a c).RunsAlone s (endOf (verdict (.ok (.ok a)) c)) s' ∧ s'.Calm ∧
      s'.rows = rowsAfter rows (verdict (.ok (.ok a)) c) := by
  have hcommit := Action.commit_eq c
  rw [verdict]
  cases hcovered : c.covered?
  case error fault =>
    rw [hcovered] at hcommit
    obtain ⟨key, held, rfl⟩ := Context.covered?_eq_error hcovered
    have ⟨s', hrollback, hcalm, hrows⟩ := rollback_alone name c hs.toCalm
    have hrun : (Action.commit c).RunsAlone s (.error (.lockUpgrade key held), c) s :=
      hcommit ▸ .done
    exact ⟨s', hrun.bind (hrollback.bind .done), hcalm, hrows.trans hs.rows_eq⟩
  case ok =>
    rw [hcovered] at hcommit
    have ⟨s', hok, hs'⟩ := hs.commit c.changes
    have ⟨next, heq, hnext⟩ := Program.commit_eq c.tx c.locks.size c.changes
    obtain ⟨_, hresult, rfl⟩ := (hnext (.ok ())).runsAlone s'
    have hcall : (Program.commit c.tx c.locks.size c.changes).RunsAlone s (.ok ()) s' :=
      heq ▸ .ask (x := .ok ()) hok hresult
    have hrun : (Action.commit c).RunsAlone s (.ok (), { c with changes := [] }) s' :=
      hcommit ▸ .bind .log (hcall.bind .done)
    exact ⟨s', hrun.bind .done, hs'⟩

theorem conclude_alone (name : String) (hs : s.Serving rows c.tx) (hfinal : Final (verdict (.ok r) c)) :
    ∃ s', (conclude name (r, c)).RunsAlone s (endOf (verdict (.ok r) c), ()) s' ∧ s'.Calm ∧
      s'.rows = rowsAfter rows (verdict (.ok r) c) := by
  cases r
  case ok a =>
    have ⟨s', hcommit, hs'⟩ := commit_alone name a hs
    exact ⟨s', hcommit.bind .done, hs'⟩
  case error stop =>
    cases stop
    case overflow => exact ⟨s, .done, hs.toCalm, hs.rows_eq⟩
    case failed failure =>
      have ⟨s', hrollback, hcalm, hrows⟩ := rollback_alone name c hs.toCalm
      have hstop : AttemptEnd.ofStop (.failed failure) = (.aborted failure : AttemptEnd α) := by
        rw [AttemptEnd.ofStop, hfinal failure rfl]
      exact ⟨s', hrollback.bind (hstop ▸ .done), hcalm, hrows.trans hs.rows_eq⟩

theorem ofLocking_eq {fault : Fault} (hfinal : Final (verdict (.error fault) c : Except Stop (Effect α))) :
    AttemptEnd.ofLocking fault = endOf (verdict (.error fault) c : Except Stop (Effect α)) := by
  have hfinal := hfinal _ rfl
  rw [AttemptEnd.ofLocking, verdict]
  by_cases htransient : fault.isTransient
  case pos => simp [htransient, Failure.transient?] at hfinal
  case neg =>
    by_cases hcontract : fault.isContractViolation <;> simp [htransient, hcontract, endOf]

-- An attempt ends as its search says.
theorem attempt_alone {s₁ : Store} (operation : String) (hs : s.Calm) (hrows : s.rows = rows)
    (hreads : ∀ resolved, Stage.Reads (task resolved))
    (h : (search config name requests task).RunsAlone s (x, c) s₁) (hfinal : Final (verdict x c)) :
    ∃ s', (attempt config name (ofTask operation requests task) ()).RunsAlone s
        (endOf (verdict x c), ()) s' ∧ s'.Calm ∧ s'.rows = rowsAfter rows (verdict x c) := by
  have ⟨s₀, hbegin, hs₀⟩ := hs.begin hrows
  have hbegins : Program.begin.RunsAlone s (.ok (s.begun + 1)) s₀ := .ask hbegin .done
  obtain ⟨_, _, hr, hrest⟩ := h.of_bind
  obtain ⟨rfl, rfl⟩ := hr.unique hbegins
  obtain ⟨_, s₂, hlog, hsearch⟩ := hrest.of_bind
  obtain ⟨-, rfl⟩ := hlog.unique .log
  obtain ⟨⟨y, c₁⟩, s₂, hlocks, hwork⟩ := hsearch.of_bind
  obtain ⟨hs₂, htx⟩ := hlocks.serving (lockRows_reads _) hs₀
  rw [attempt_ofTask]
  simp only [transact_ofTask]
  cases y
  case error fault =>
    obtain ⟨heq, -⟩ := hwork
    cases heq
    have ⟨s', hrollback, hcalm, hrows⟩ := rollback_alone name c hs₂.toCalm
    exact ⟨s', hbegins.bind (.bind hlog (hlocks.bind (hrollback.bind (ofLocking_eq hfinal ▸ .done)))),
      hcalm, hrows.trans hs₂.rows_eq⟩
  case ok resolved =>
    obtain ⟨⟨r, c₂⟩, s₃, htask, hdone⟩ := hwork.of_bind
    obtain ⟨heq, -⟩ := hdone
    cases heq
    obtain ⟨hs₃, htx'⟩ := htask.serving (hreads resolved _) (htx ▸ hs₂)
    have ⟨s', hend, hs'⟩ := conclude_alone name (htx' ▸ hs₃) hfinal
    exact ⟨s', hbegins.bind (.bind hlog (hlocks.bind (htask.bind hend))), hs'⟩

theorem proceed_alone {again : Nat → Program (Except Stop α × Unit)} (hfinal : Final outcome)
    (s : Store) : (proceed name operation number left again (endOf outcome)).RunsAlone s
      (outcome.map Effect.result, ()) s := by
  have hsettles : (report operation number (endOf outcome).outcome?).Settles fun _ => True :=
    report_settles
  have ⟨_, hreport, _⟩ := hsettles.runsAlone s
  refine hreport.bind ?_
  cases outcome
  case ok effect => exact .bind .log .done
  case error stop =>
    cases stop
    case overflow => exact .done
    case failed failure => exact .bind .log .done

-- With nobody beside it, the unit comes to the outcome: it gives the result, and leaves the rows
-- with the changes applied.
def Comes (config : TransactionConfig) (unit : UnitOfWork Unit α) (s : Store)
    (outcome : Except Stop (Effect α)) : Prop :=
  ∃ s', (unit.execute config ()).RunsAlone s (outcome.map Effect.result, ()) s' ∧ s'.Calm ∧
    s'.rows = rowsAfter s.rows outcome

variable (hs : s.Calm) (hreads : ∀ resolved, Stage.Reads (task resolved))

include hs hreads

theorem comes_of_search {s₁ : Store}
    (h : (search config (config.correlation name) requests task).RunsAlone s (x, c) s₁)
    (hfinal : Final (verdict x c)) : Comes config (ofTask name requests task) s (verdict x c) := by
  have ⟨s', hattempt, hs'⟩ := attempt_alone name hs rfl hreads h hfinal
  refine ⟨s', ?_, hs'⟩
  rw [execute_ofTask, attempts_ofTask]
  exact (hattempt.bind (proceed_alone hfinal s')).claimedBy

-- Locks that are asked for in vain end the unit.
theorem comes_malformed {what : String} (h : ∀ c, lockRows config (config.correlation name) requests
      c = .done (.error (.invalidRequest what), c)) :
    Comes config (ofTask name requests task) s
      (.error (.failed (.store (.invalidRequest what)))) := by
  have ⟨s₁, hbegin, _⟩ := hs.begin rfl
  have hbegins : Program.begin.RunsAlone s (.ok (s.begun + 1)) s₁ := .ask hbegin .done
  have hsearch : (search config (config.correlation name) requests task).RunsAlone s
      (.error (.invalidRequest what), .new (s.begun + 1)) s₁ := by
    refine hbegins.bind (.bind .log ?_)
    rw [h]
    exact .done
  exact comes_of_search hs hreads hsearch fun _ heq => by cases heq; rfl

-- Without row locks, the unit does what its task does on the rows as they are.
theorem comes_free (hfree : ¬config.rowLevelLock) (hfinal : Final outcome)
    (h : ∀ tx, Follows (some s.rows) (task .empty) (.new tx) outcome) :
    Comes config (ofTask name requests task) s outcome := by
  have ⟨s₁, hbegin, hs₁⟩ := hs.begin rfl
  have hbegins : Program.begin.RunsAlone s (.ok (s.begun + 1)) s₁ := .ask hbegin .done
  have ⟨c, hyields, hedits, hchanges⟩ := h (s.begun + 1)
  have ⟨s₂, htask⟩ := hyields.runsAlone hs₁.coherent hs₁.rows_eq
  have hlocks (c : Context) : lockRows config (config.correlation name) requests c =
      .done (.ok .empty, c) := by
    rw [lockRows, if_neg hfree]
    rfl
  have hsearch : (search config (config.correlation name) requests task).RunsAlone s
      (.ok (outcome.map Effect.result), c) s₂ := by
    refine hbegins.bind (.bind .log ?_)
    rw [hlocks]
    exact htask.bind .done
  have hverdict : verdict (.ok (outcome.map Effect.result)) c = outcome := by
    cases outcome
    case error => rfl
    case ok effect =>
      have hcovered : c.covered? = .ok () := if_neg (by simp [hedits.sealed, Context.new])
      simp only [Except.map, verdict, hcovered, hchanges effect rfl]
  have hcomes := comes_of_search hs hreads hsearch
  rw [hverdict] at hcomes
  exact hcomes hfinal

-- Under row locks that can be taken, it does what one attempt comes to while the rows stay as they
-- are.
theorem exists_attempted {unit : UnitOfWork Unit α} (hunit : unit = ofTask name requests task)
    (hlocks : ∀ (σ : Timeline) (tx : TxId) (t : Nat), ∃ Q,
      Gives σ (lockRows config (config.correlation name) requests) (.new tx) t Q) :
    ∃ (σ : Timeline) (o : Attempted σ config (config.correlation name) requests task 0),
      σ.Steady s.rows ∧ (Final (verdict (.ok o.result) o.finish) →
        Comes config unit s (verdict (.ok o.result) o.finish)) := by
  subst hunit
  have hsearch {P : Request → Prop} (hbegin : P (.store .begin)) (hlog : ∀ line, P (.log line))
      (hread : ∀ tx r, r.Reads tx → P r) :
      (search config (config.correlation name) requests task).Only P := by
    refine Only.bind (.call hbegin) fun r => ?_
    cases r
    case error => trivial
    case ok tx =>
      refine Only.bind (.log hlog) fun _ => Only.bind
        ((lockRows_reads _).mono (hread _) fun _ _ => trivial) fun (r, c) => ?_
      cases r
      case error => trivial
      case ok resolved =>
        exact Only.bind ((hreads resolved c).mono (hread _) fun _ _ => trivial) fun _ => trivial
  have hplain := hsearch (P := Request.Plain) trivial (fun _ => trivial) fun _ _ => Request.Reads.plain
  have ⟨(x, c), s₁, halone⟩ := exists_runsAlone hplain s
  have ⟨σ, u, hruns, hσ⟩ := halone.steady hs.coherent hplain
    (hsearch (by simp) (by simp) fun _ _ => Request.Reads.ne_commit)
  obtain ⟨_, _, ⟨start, y, hstart, hy, rfl, rfl⟩, hrest⟩ := runs_bind.mp hruns
  cases y
  case error fault => cases hy.2.symm.trans (Store.begin_eq (σ.coherent start))
  case ok tx =>
    obtain ⟨_, v, hlog, hrest⟩ := runs_bind.mp hrest
    obtain ⟨⟨r, c₁⟩, w, hlock, hrest⟩ := runs_bind.mp hrest
    have ⟨Q, hgives⟩ := hlocks σ tx v
    obtain ⟨resolved, rfl, _⟩ := hgives _ _ hlock
    obtain ⟨⟨r, c₂⟩, z, htask, heq, _⟩ := runs_bind.mp hrest
    cases heq
    refine ⟨σ, ⟨start, hstart.le, tx, hy, v, hlog.le, resolved, c₁, w, hlock, r, c, z, htask⟩, hσ, ?_⟩
    exact comes_of_search hs hreads halone

omit hs hreads

theorem Attempted.Planned.comes {unit : UnitOfWork Unit α}
    {o : Attempted σ config name requests task t} (h : o.Planned outcome)
    (hcovered : ∀ effect, outcome = .ok effect → o.finish.covered? = .ok ())
    (hfinal : Final outcome) (hcomes : Final (verdict (.ok o.result) o.finish) →
      Comes config unit s (verdict (.ok o.result) o.finish)) : Comes config unit s outcome := by
  rw [h.verdict_eq hcovered] at hcomes
  exact hcomes hfinal

end UnitOfWork

end NamespaceService
