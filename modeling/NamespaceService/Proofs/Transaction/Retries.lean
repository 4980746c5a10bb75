import NamespaceService.Proofs.Transaction.Marks

namespace NamespaceService

open Program

namespace AttemptEnd

variable {α : Type}

-- What the unit comes to if this is the end of its last attempt.
def result? : AttemptEnd α → Option (Except Stop α)
  | committed value => some (.ok value)
  | retryable _ => none
  | aborted failure => some (.error (.failed failure))
  | overflow => some (.error .overflow)

theorem ofLocking_outcome? (fault : Fault) :
    ∃ retry, (ofLocking fault : AttemptEnd α).outcome? = some (.rolledBack retry) := by
  rw [ofLocking]
  split
  case isTrue => exact ⟨true, rfl⟩
  case isFalse => split <;> exact ⟨false, rfl⟩

theorem ofCommit_outcome? (fault : Fault) :
    ∃ retry, (ofCommit fault : AttemptEnd α).outcome? = some (.rolledBack retry) := by
  rw [ofCommit]
  split
  case isTrue => exact ⟨false, rfl⟩
  case isFalse => exact ⟨true, rfl⟩

theorem ofStop_outcome? {stop : Stop} (h : stop ≠ .overflow) :
    ∃ retry, (ofStop stop : AttemptEnd α).outcome? = some (.rolledBack retry) := by
  cases stop
  case overflow => exact absurd rfl h
  case failed failure =>
    rw [ofStop]
    split
    case h_1 => exact ⟨true, rfl⟩
    case h_2 => exact ⟨false, rfl⟩

end AttemptEnd

namespace UnitOfWork

variable {σ α : Type} {config : TransactionConfig} {name operation : String}
  {unit : UnitOfWork σ α} {state state' state'' : σ} {tx : TxId} {c : Context} {w w' : World}
  {marks marks' : List Mark} {e : AttemptEnd α} {ends : List (AttemptEnd α)} {r : Except Stop α}
  {number left : Nat} {s s' s'' : Store}

-- The work keeps to its context, and the state is made ready without the store.
structure Proper (unit : UnitOfWork σ α) : Prop where
  setUp (state : σ) : (unit.setUp state).Only fun r => ∃ line, r = .log line
  perform (resolved : Resolved) (state : σ) : Confined (unit.perform resolved state)

theorem Proper.ofTask {requests : Except Fault RequestSet} {task : Resolved → Task α}
    (h : ∀ resolved, Stage.Straight (task resolved)) : (ofTask name requests task).Proper where
  setUp _ := trivial
  perform resolved _ := (h resolved).confined.bind (f := fun r => pure (r, ())) fun _ => .pure _

-- What an attempt with this end leaves: there was no transaction, or it is over.
inductive Round (e : AttemptEnd α) : List Mark → Prop
  | committed (tx : TxId) (he : e.outcome? = some .committed) :
    Round e [.begun tx, .committed tx]
  | unbegun {retry : Bool} (he : e.outcome? = some (.rolledBack retry)) : Round e []
  | rolledBack {retry : Bool} (tx : TxId) (he : e.outcome? = some (.rolledBack retry)) :
    Round e [.begun tx, .rolledBack tx]

theorem rollback_plays {x : Unit} (h : (rollback name c).Plays w marks x w') :
    marks = [.rolledBack c.tx] ∧ w'.store.rows = w.store.rows := by
  obtain ⟨before, after, ⟨result, c'⟩, w₁, rfl, hcall, hrest⟩ := h.of_bind
  obtain ⟨y, w₂, rest, hx, rfl, rfl, heq, rfl⟩ := hcall
  have hrows : w₂.store.rows = w.store.rows := by
    cases hx
    obtain hsame | ⟨_, _, hcall, -⟩ := w.store.answer_same (.rollback c.takeChanges.2.tx)
    · exact hsame.1
    · cases hcall
  cases result
  case ok =>
    obtain ⟨rfl, -, rfl⟩ := hrest
    exact ⟨rfl, hrows⟩
  case error =>
    obtain ⟨rfl, hstore⟩ := Plays.log hrest
    exact ⟨rfl, (congrArg Store.rows hstore).trans hrows⟩

theorem commit_call_plays {held : Nat} {changes : List Change} {result : Except Fault Unit}
    (h : (Program.commit tx held changes).Plays w marks result w') :
    result = .ok () ∧ marks = [.committed tx] ∨
      (∃ fault, result = .error fault) ∧ marks = [] ∧ w'.store.rows = w.store.rows := by
  obtain ⟨before, after, x, w₁, rfl, hcall, hrest⟩ := h.of_bind
  obtain ⟨y, w₂, rest, hx, rfl, rfl, rfl, rfl⟩ := hcall
  cases y
  case ok =>
    obtain ⟨w₃, -, rfl, rfl, rfl⟩ := Plays.after_log hrest
    exact .inl ⟨rfl, rfl⟩
  case error refusal =>
    have hrows : w₂.store.rows = w.store.rows := by
      obtain ⟨hrefused, rfl⟩ := Prod.mk.inj (Option.some.inj hx)
      exact (Store.commit_error hrefused).1
    cases refusal
    case fault =>
      obtain ⟨rfl, rfl, rfl⟩ := hrest
      exact .inr ⟨⟨_, rfl⟩, rfl, hrows⟩
    case stale =>
      obtain ⟨w₃, hstore, rfl, rfl, rfl⟩ := Plays.after_log hrest
      exact .inr ⟨⟨_, rfl⟩, rfl, (congrArg Store.rows hstore).trans hrows⟩

theorem commit_plays {value : α} (h : (commit name value c).Plays w marks e w') :
    e = .committed value ∧ marks = [.committed c.tx] ∨
      (∃ fault, e = .ofCommit fault) ∧ marks = [.rolledBack c.tx] ∧
        w'.store.rows = w.store.rows := by
  obtain ⟨before, after, ⟨result, c'⟩, w₁, rfl, hcommit, hrest⟩ := h.of_bind
  have haction : c'.tx = c.tx ∧ (result = .ok () ∧ before = [.committed c.tx] ∨
      (∃ fault, result = .error fault) ∧ before = [] ∧ w₁.store.rows = w.store.rows) := by
    rw [Action.commit_eq] at hcommit
    split at hcommit
    case h_1 fault _ =>
      obtain ⟨rfl, heq, rfl⟩ := hcommit
      cases heq
      exact ⟨rfl, .inr ⟨⟨fault, rfl⟩, rfl, rfl⟩⟩
    case h_2 =>
      obtain ⟨w₂, hstore, hrest⟩ := Plays.after_log hcommit
      obtain ⟨before, after, r, w₃, rfl, hcall, rfl, heq, rfl⟩ := hrest.of_bind
      cases heq
      refine ⟨rfl, ?_⟩
      obtain ⟨rfl, rfl⟩ | ⟨hfault, rfl, hrows⟩ := commit_call_plays hcall
      · exact .inl ⟨rfl, rfl⟩
      · exact .inr ⟨hfault, rfl, hrows.trans (congrArg Store.rows hstore)⟩
  obtain ⟨htx, ⟨rfl, rfl⟩ | ⟨⟨fault, rfl⟩, rfl, hrows⟩⟩ := haction
  · obtain ⟨rfl, rfl, rfl⟩ := hrest
    exact .inl ⟨rfl, rfl⟩
  · obtain ⟨before, after, _, w₂, rfl, hrollback, rfl, rfl, rfl⟩ := hrest.of_bind
    obtain ⟨rfl, hrows'⟩ := rollback_plays hrollback
    exact .inr ⟨⟨fault, rfl⟩, by rw [htx]; rfl, hrows'.trans hrows⟩

-- The transaction is over at the end.
theorem transact_plays (hunit : unit.Proper) (he : e ≠ .overflow)
    (h : (transact config name unit state tx).Plays w marks (e, state') w') :
    e.outcome? = some .committed ∧ marks = [.committed tx] ∨
      (∃ retry, e.outcome? = some (.rolledBack retry)) ∧ marks = [.rolledBack tx] ∧
        w'.store.rows = w.store.rows := by
  obtain ⟨w₁, hstore, hrest⟩ := Plays.after_log h
  obtain ⟨before, after, ⟨result, c⟩, w₂, rfl, hlocks, hrest⟩ := hrest.of_bind
  obtain ⟨rfl, hrows, htx⟩ := (lockRows_reads (.new tx)).quiet (fun _ => Request.Reads.quiet) hlocks
  replace hrows := hrows.trans (congrArg Store.rows hstore)
  cases result
  case error fault =>
    obtain ⟨before, after, _, w₃, rfl, hrollback, rfl, heq, rfl⟩ := hrest.of_bind
    cases heq
    obtain ⟨rfl, hrows'⟩ := rollback_plays hrollback
    exact .inr ⟨AttemptEnd.ofLocking_outcome? fault, by rw [htx]; rfl, hrows'.trans hrows⟩
  case ok resolved =>
    obtain ⟨before, after, ⟨⟨result, state₁⟩, c'⟩, w₃, rfl, hwork, hrest⟩ := hrest.of_bind
    obtain ⟨rfl, hrows₁, htx'⟩ :=
      ((hunit.perform resolved state).keeps c).quiet (fun _ => Request.Reads.quiet) hwork
    replace hrows := hrows₁.trans hrows
    obtain rfl : c'.tx = tx := htx'.trans htx
    cases result
    case ok value =>
      obtain ⟨before, after, e, w₄, rfl, hcommit, rfl, heq, rfl⟩ := hrest.of_bind
      cases heq
      rw [List.append_nil]
      obtain ⟨rfl, rfl⟩ | ⟨⟨fault, rfl⟩, rfl, hrows'⟩ := commit_plays hcommit
      · exact .inl ⟨rfl, rfl⟩
      · exact .inr ⟨AttemptEnd.ofCommit_outcome? fault, rfl, hrows'.trans hrows⟩
    case error stop =>
      cases stop
      case overflow =>
        obtain ⟨-, heq, -⟩ := hrest
        cases heq
        exact absurd rfl he
      case failed failure =>
        obtain ⟨before, after, _, w₄, rfl, hrollback, rfl, heq, rfl⟩ := hrest.of_bind
        cases heq
        obtain ⟨rfl, hrows'⟩ := rollback_plays hrollback
        exact .inr ⟨AttemptEnd.ofStop_outcome? nofun, rfl, hrows'.trans hrows⟩

theorem begin_plays {result : Except Fault TxId} (h : Program.begin.Plays w marks result w') :
    ((∃ fault, result = .error fault) ∧ marks = [] ∨ ∃ tx, result = .ok tx ∧ marks = [.begun tx]) ∧
      w'.store.rows = w.store.rows := by
  obtain ⟨x, w₁, rest, hx, rfl, rfl, rfl, rfl⟩ := h
  refine ⟨?_, ?_⟩
  · cases x
    case error fault => exact .inl ⟨⟨fault, rfl⟩, rfl⟩
    case ok tx => exact .inr ⟨tx, rfl, rfl⟩
  · cases hx
    obtain hsame | ⟨_, _, hcall, -⟩ := w.store.answer_same .begin
    · exact hsame.1
    · cases hcall

theorem attempt_round (hunit : unit.Proper) (he : e ≠ .overflow)
    (h : (attempt config name unit state).Plays w marks (e, state') w') :
    Round e marks ∧ (e.outcome? = some .committed ∨ w'.store.rows = w.store.rows) := by
  obtain ⟨before, after, ⟨result, state₁⟩, w₁, rfl, hsetUp, hready⟩ := h.of_bind
  obtain ⟨rfl, hrows, -⟩ := (hunit.setUp state).quiet (by rintro r ⟨line, rfl⟩; trivial) hsetUp
  cases result
  case error stop =>
    obtain ⟨rfl, heq, rfl⟩ := hready
    cases heq
    obtain ⟨retry, he⟩ : ∃ retry,
        (AttemptEnd.ofStop stop : AttemptEnd α).outcome? = some (.rolledBack retry) :=
      AttemptEnd.ofStop_outcome? fun hstop => he (congrArg _ hstop)
    exact ⟨.unbegun he, .inr hrows⟩
  case ok =>
    obtain ⟨begun, rest, result, w₂, rfl, hbegin, hbegun⟩ := Plays.of_bind hready
    obtain ⟨⟨⟨fault, rfl⟩, rfl⟩ | ⟨tx, rfl, rfl⟩, hrows'⟩ := begin_plays hbegin
    · obtain ⟨rfl, heq, rfl⟩ := hbegun
      cases heq
      obtain ⟨retry, he⟩ : ∃ retry,
          (AttemptEnd.ofLocking fault : AttemptEnd α).outcome? = some (.rolledBack retry) :=
        AttemptEnd.ofLocking_outcome? fault
      exact ⟨.unbegun he, .inr (hrows'.trans hrows)⟩
    · obtain ⟨he, rfl⟩ | ⟨⟨retry, he⟩, rfl, hrows''⟩ := transact_plays hunit he hbegun
      · exact ⟨.committed tx he, .inl he⟩
      · exact ⟨.rolledBack tx he, .inr (hrows''.trans (hrows'.trans hrows))⟩

theorem Proper.attempt_plain (hunit : unit.Proper) :
    (attempt config name unit state).Only Request.Plain := by
  have hrollback : ∀ c, (rollback name c).Only Request.Plain := fun c =>
    rollback_closes.mono fun _ => Request.Closes.plain
  have hsetUp : (unit.setUp state).Only Request.Plain :=
    (hunit.setUp state).mono (by rintro r ⟨line, rfl⟩; trivial)
  refine hsetUp.bind fun (result, state) => ?_
  cases result
  case error => trivial
  case ok =>
    refine Only.bind (.call trivial) fun result => ?_
    cases result
    case error => trivial
    case ok tx =>
      refine Only.bind (.log fun _ => trivial) fun _ =>
        Only.bind (lockRows_reads.plain _) fun (result, c) => ?_
      cases result
      case error => exact Only.bind (hrollback c) fun _ => trivial
      case ok resolved =>
        have hperform : (unit.perform resolved state c).Only Request.Plain :=
          ((hunit.perform resolved state).keeps c).mono (fun _ => Request.Reads.plain)
            fun _ _ => trivial
        refine Only.bind hperform fun ((result, state), c) => ?_
        cases result
        case ok value =>
          exact Only.bind (commit_closes.mono fun _ => Request.Closes.plain) fun _ => trivial
        case error stop =>
          cases stop
          case overflow => trivial
          case failed => exact Only.bind (hrollback c) fun _ => trivial

-- Attempts made one after another, each going on with the state and the store that it finds.
inductive Follow (config : TransactionConfig) (name : String) (unit : UnitOfWork σ α) :
    σ → Store → List (AttemptEnd α) → σ → Store → Prop
  | nil {state : σ} {s : Store} : Follow config name unit state s [] state s
  | cons {state state' state'' : σ} {s s' s'' : Store} {e : AttemptEnd α}
    {ends : List (AttemptEnd α)}
    (h : (attempt config name unit state).RunsAlone s (e, state') s')
    (hnext : Follow config name unit state' s' ends state'' s'') :
    Follow config name unit state s (e :: ends) state'' s''

-- The ends of attempts from `number` on, where `left` more may follow, with the marks that they leave
-- and the result.
inductive Accounts (operation : String) :
    Nat → Nat → List (AttemptEnd α) → List Mark → Except Stop α → Prop
  | committed {number left : Nat} {value : α} {marks : List Mark}
    (h : Round (.committed value) marks) : Accounts operation number left [.committed value]
      (marks ++ [.reported ⟨operation, number, .committed⟩]) (.ok value)
  | aborted {number left : Nat} {failure : Failure} {marks : List Mark}
    (h : Round (.aborted failure : AttemptEnd α) marks) :
    Accounts operation number left [.aborted failure]
      (marks ++ [.reported ⟨operation, number, .rolledBack false⟩]) (.error (.failed failure))
  | exhausted {number : Nat} {fault : Fault} {marks : List Mark}
    (h : Round (.retryable fault : AttemptEnd α) marks) :
    Accounts operation number 0 [.retryable fault]
      (marks ++ [.reported ⟨operation, number, .rolledBack true⟩])
      (.error (.failed (.retriesExhausted number fault)))
  | retried {number left : Nat} {fault : Fault} {ends : List (AttemptEnd α)}
    {marks marks' : List Mark} {r : Except Stop α}
    (h : Round (.retryable fault : AttemptEnd α) marks)
    (hnext : Accounts operation (number + 1) left ends marks' r) :
    Accounts operation number (left + 1) (.retryable fault :: ends)
      (marks ++ .reported ⟨operation, number, .rolledBack true⟩ :: marks') r

theorem report_plays {outcome : AttemptOutcome} {x : Unit}
    (h : (report operation number (some outcome)).Plays w marks x w') :
    marks = [.reported ⟨operation, number, outcome⟩] ∧ w'.store = w.store := by
  obtain ⟨_, w₁, rest, hx, rfl, rfl, -, rfl⟩ := h
  cases hx
  exact ⟨rfl, rfl⟩

theorem attempts_accounts (hunit : unit.Proper) (hr : r ≠ .error .overflow)
    (h : (attempts config name unit number left state).Plays w marks (r, state') w') :
    ∃ ends, Follow config name unit state w.store ends state' w'.store ∧
      Accounts unit.name number left ends marks r ∧
      ((∃ stop, r = .error stop) → w'.store.rows = w.store.rows) := by
  induction left generalizing number state w marks
  all_goals
    rw [attempts.eq_def] at h
    obtain ⟨round, rest, ⟨e, state₁⟩, w₁, rfl, hattempt, hended⟩ := h.of_bind
    have halone := hattempt.alone hunit.attempt_plain
    obtain ⟨reported, rest, _, w₂, rfl, hreport, hnext⟩ := Plays.of_bind hended
    have he : e ≠ .overflow := by
      rintro rfl
      obtain ⟨-, heq, -⟩ := hnext
      exact hr (congrArg Prod.fst heq).symm
    obtain ⟨hround, hrows⟩ := attempt_round hunit he hattempt
    cases e
    case overflow => exact absurd rfl he
    case committed value =>
      obtain ⟨rfl, hstore⟩ := report_plays hreport
      obtain ⟨w₃, hstore', rfl, heq, rfl⟩ := Plays.after_log hnext
      cases heq
      refine ⟨_, .cons halone ?_, .committed hround, by simp⟩
      rw [hstore', hstore]
      exact .nil
    case aborted failure =>
      obtain ⟨rfl, hstore⟩ := report_plays hreport
      obtain ⟨w₃, hstore', rfl, heq, rfl⟩ := Plays.after_log hnext
      cases heq
      rw [hstore', hstore]
      exact ⟨_, .cons halone .nil, .aborted hround,
        fun _ => hrows.resolve_left (by simp [AttemptEnd.outcome?])⟩
  case zero.retryable fault =>
    obtain ⟨rfl, hstore⟩ := report_plays hreport
    obtain ⟨w₃, hstore', hgone⟩ := Plays.after_log hnext
    obtain ⟨w₄, hstore'', rfl, heq, rfl⟩ := Plays.after_log hgone
    cases heq
    rw [hstore'', hstore', hstore]
    exact ⟨_, .cons halone .nil, .exhausted hround,
      fun _ => hrows.resolve_left (by simp [AttemptEnd.outcome?])⟩
  case succ.retryable left ih _ fault =>
    obtain ⟨rfl, hstore⟩ := report_plays hreport
    obtain ⟨w₃, hstore', hagain⟩ := Plays.after_log hnext
    obtain ⟨ends, hfollow, haccounts, hrows'⟩ := ih hagain
    rw [hstore', hstore] at hfollow hrows'
    exact ⟨_, .cons halone hfollow, .retried hround haccounts,
      fun hr => (hrows' hr).trans (hrows.resolve_left (by simp [AttemptEnd.outcome?]))⟩

namespace Round

theorem reports_nil (h : Round e marks) : marks.filterMap Mark.report? = [] := by
  cases h <;> rfl

theorem filter_eq (h : Round e marks) : marks.filter (!·.isReport) = marks := by
  cases h <;> rfl

theorem commits_eq (h : Round e marks) :
    marks.countP Mark.isCommit = if e.outcome? = some .committed then 1 else 0 := by
  cases h
  case committed he => simp [he, Mark.isCommit]
  case unbegun he => simp [he]
  case rolledBack he => simp [he, Mark.isCommit]

end Round

namespace Accounts

variable {last : AttemptEnd α}

theorem ends_ne_nil (h : Accounts operation number left ends marks r) : ends ≠ [] := by
  cases h <;> exact List.cons_ne_nil _ _

theorem length_le (h : Accounts operation number left ends marks r) : ends.length ≤ left + 1 := by
  induction h
  case retried ih => exact Nat.succ_le_succ ih
  all_goals exact Nat.succ_le_succ (Nat.zero_le _)

theorem rounds (h : Accounts operation number left ends marks r) :
    ∃ rounds, List.Forall₂ Round ends rounds ∧ marks.filter (!·.isReport) = rounds.flatten := by
  induction h
  case retried h _ ih =>
    obtain ⟨rounds, hrounds, hmarks⟩ := ih
    refine ⟨_ :: rounds, .cons h hrounds, ?_⟩
    rw [List.filter_append, h.filter_eq, List.filter_cons, hmarks]
    rfl
  all_goals
    rename_i h
    refine ⟨_, .cons h .nil, ?_⟩
    rw [List.filter_append, h.filter_eq]
    rfl

-- All attempts but the last are to be retried.
theorem reports (h : Accounts operation number left ends marks r)
    (hlast : ends.getLast? = some last) : ∃ outcome, last.outcome? = some outcome ∧
      marks.filterMap Mark.report? =
        (List.range' number (ends.length - 1)).map (⟨operation, ·, .rolledBack true⟩) ++
          [⟨operation, number + (ends.length - 1), outcome⟩] := by
  induction h
  case retried number left fault ends _ _ _ h hnext ih =>
    obtain ⟨k, hk⟩ := Nat.exists_eq_succ_of_ne_zero
      fun hlen => hnext.ends_ne_nil (List.eq_nil_of_length_eq_zero hlen)
    rw [List.getLast?_cons_of_ne_nil hnext.ends_ne_nil] at hlast
    obtain ⟨outcome, houtcome, hreports⟩ := ih hlast
    refine ⟨outcome, houtcome, ?_⟩
    have hlen : (AttemptEnd.retryable fault :: ends).length - 1 = k + 1 := hk
    rw [hk, Nat.succ_sub_one, Nat.add_assoc, Nat.add_comm 1 k] at hreports
    rw [List.filterMap_append, h.reports_nil, hlen, List.range'_succ]
    exact congrArg (List.cons _) hreports
  all_goals
    rename_i h
    cases hlast
    refine ⟨_, rfl, ?_⟩
    rw [List.filterMap_append, h.reports_nil]
    rfl

theorem commits (h : Accounts operation number left ends marks r) :
    marks.countP Mark.isCommit = if r.isOk then 1 else 0 := by
  induction h
  case retried h _ ih =>
    rw [List.countP_append, h.commits_eq, List.countP_cons, ih]
    simp [AttemptEnd.outcome?, Mark.isCommit]
  all_goals
    rename_i h
    rw [List.countP_append, h.commits_eq]
    rfl

-- The last attempt decides.
theorem result_eq (h : Accounts operation number left ends marks r)
    (hlast : ends.getLast? = some last) :
    (∀ fault, last = .retryable fault →
      ends.length = left + 1 ∧ r = .error (.failed (.retriesExhausted (number + left) fault))) ∧
    ∀ result, last.result? = some result → r = result := by
  induction h
  case retried h hnext ih =>
    rw [List.getLast?_cons_of_ne_nil hnext.ends_ne_nil] at hlast
    obtain ⟨hretry, hown⟩ := ih hlast
    refine ⟨fun fault hfault => ?_, hown⟩
    obtain ⟨hlength, hr⟩ := hretry fault hfault
    refine ⟨congrArg Nat.succ hlength, ?_⟩
    rw [hr, Nat.add_right_comm]
    rfl
  case exhausted =>
    cases hlast
    exact ⟨fun fault heq => by cases heq; exact ⟨rfl, rfl⟩, nofun⟩
  all_goals
    cases hlast
    exact ⟨nofun, fun result heq => Option.some.inj heq⟩

end Accounts

-- The guards that the unit asks for can be had at once.
structure Admitted (config : TransactionConfig) (unit : UnitOfWork σ α) (w : World) : Prop where
  storage {storage : String} : unit.storage = some storage → (w.storages.acquire storage).1.isSome
  coarse : (w.coarse.acquire? (if config.coarseLock then unit.coarse else .none)).isSome

section

variable {β : Type} {work : Program β} {b : β}

-- What stands around the work leaves no mark.
theorem guarded_plays (lock : Request) (unlock : lock.Response → Request) {x : lock.Response}
    {y : (unlock x).Response} (hlock : w.perform lock = some (x, w')) (hx : lock.mark? x = none)
    (hunlock : ∀ v : World, ∃ v', v.perform (unlock x) = some (y, v') ∧ v'.store = v.store)
    (hy : (unlock x).mark? y = none) (hwork : ∃ v, work.Plays w' marks b v ∧ v.store = s') :
    ∃ v, (Program.ask lock fun x => do
      let result ← work
      .ask (unlock x) fun _ => .done result).Plays w marks b v ∧ v.store = s' := by
  obtain ⟨v, hplays, hstore⟩ := hwork
  obtain ⟨v', hv', hstore'⟩ := hunlock v
  have hrest : (Program.ask (unlock x) fun _ => .done b).Plays v [] b v' := by
    have h : (Program.ask (unlock x) fun _ => .done b).Plays v
        (((unlock x).mark? y).toList ++ []) b v' := .ask hv' .done
    rwa [hy] at h
  refine ⟨v', ?_, hstore'.trans hstore⟩
  have h : (Program.ask lock fun x => work >>= fun b => .ask (unlock x) fun _ => .done b).Plays w
      ((lock.mark? x).toList ++ (marks ++ [])) b v' :=
    .ask hlock (hplays.bind hrest)
  rwa [hx, List.append_nil] at h

theorem withCoarse_plays {mode : CoarseMode} (h : (w.coarse.acquire? mode).isSome)
    (hwork : ∀ v : World, v.store = w.store → ∃ v', work.Plays v marks b v' ∧ v'.store = s') :
    ∃ w', (withCoarse mode work).Plays w marks b w' ∧ w'.store = s' := by
  obtain ⟨coarse, hcoarse⟩ := Option.isSome_iff_exists.mp h
  have hlock : ∀ mode, w.coarse.acquire? mode = some coarse →
      w.perform (.lockCoarse mode) = some ((), { w with coarse }) := by
    intro mode hmode
    rw [World.perform, hmode]
    rfl
  cases mode
  case none => exact hwork w rfl
  case read =>
    exact guarded_plays (.lockCoarse .read) (fun _ => .unlockCoarse .read) (hlock _ hcoarse) rfl
      (fun _ => ⟨_, rfl, rfl⟩) rfl (hwork _ rfl)
  case write =>
    exact guarded_plays (.lockCoarse .write) (fun _ => .unlockCoarse .write) (hlock _ hcoarse) rfl
      (fun _ => ⟨_, rfl, rfl⟩) rfl (hwork _ rfl)

theorem withStorage_plays {storage : Option String}
    (h : ∀ name, storage = some name → (w.storages.acquire name).1.isSome)
    (hwork : ∀ v : World, v.store = w.store → v.coarse = w.coarse →
      ∃ v', work.Plays v marks b v' ∧ v'.store = s') :
    ∃ w', (withStorage storage work).Plays w marks b w' ∧ w'.store = s' := by
  cases storage
  case none => exact hwork w rfl rfl
  case some name =>
    obtain ⟨lock, hlock⟩ := Option.isSome_iff_exists.mp (h name rfl)
    generalize hstorages : (w.storages.acquire name).2 = storages
    have hperform : w.perform (.lockStorage name) = some (lock, { w with storages }) := by
      have hacquire : w.storages.acquire name = (some lock, storages) := Prod.ext hlock hstorages
      simp only [World.perform, hacquire]
      rfl
    exact guarded_plays (.lockStorage name) .unlockStorage hperform rfl
      (fun _ => ⟨_, rfl, rfl⟩) rfl (hwork _ rfl rfl)

end

theorem Proper.attempts_plain (hunit : unit.Proper) :
    (attempts config name unit number left state).Only Request.Plain := by
  induction left generalizing number state
  all_goals
    rw [attempts.eq_def]
    refine Only.bind hunit.attempt_plain fun x => ?_
    obtain ⟨e, state⟩ := x
    refine Only.bind
      (report_settles.mono (fun r hr => by cases r <;> trivial) fun _ _ => trivial) fun _ => ?_
    cases e
    case committed => exact Only.bind (.log fun _ => trivial) fun _ => trivial
    case aborted => exact Only.bind (.log fun _ => trivial) fun _ => trivial
    case overflow => trivial
  case zero.retryable =>
    exact Only.bind (.log fun _ => trivial) fun _ => Only.bind (.log fun _ => trivial) fun _ => trivial
  case succ.retryable ih _ _ _ => exact Only.bind (.log fun _ => trivial) fun _ => ih

-- The accounts of a unit whose attempts end with `ends`, where `rows` become `rows'`.
structure Accounted (config : TransactionConfig) (operation : String) (rows rows' : Rows)
    (ends : List (AttemptEnd α)) (last : AttemptEnd α) (marks : List Mark) (r : Except Stop α) :
    Prop where
  last_eq : ends.getLast? = some last
  length_le : ends.length ≤ config.attempts
  -- Each attempt ends the transaction that it begins, before the next one begins.
  rounds : ∃ rounds, List.Forall₂ Round ends rounds ∧ marks.filter (!·.isReport) = rounds.flatten
  reports : ∃ outcome, last.outcome? = some outcome ∧ marks.filterMap Mark.report? =
    (List.range' 1 (ends.length - 1)).map (⟨operation, ·, .rolledBack true⟩) ++
      [⟨operation, ends.length, outcome⟩]
  commits : marks.countP Mark.isCommit = if r.isOk then 1 else 0
  committed : r.isOk → last.outcome? = some .committed
  unchanged : ¬r.isOk → rows' = rows
  exhausted {fault : Fault} : last = .retryable fault → ends.length = config.attempts ∧
    r = .error (.failed (.retriesExhausted ends.length fault))
  own {result : Except Stop α} : last.result? = some result → r = result

theorem Accounts.accounted {rows rows' : Rows}
    (h : Accounts operation 1 (config.attempts - 1) ends marks r)
    (hrows : (∃ stop, r = .error stop) → rows' = rows) :
    ∃ last, Accounted config operation rows rows' ends last marks r := by
  have hpos : 1 ≤ config.attempts := Nat.le_max_left ..
  have hne : 1 ≤ ends.length := List.length_pos_iff.mpr h.ends_ne_nil
  obtain ⟨last, hlast⟩ : ∃ last, ends.getLast? = some last :=
    ⟨_, List.getLast?_eq_some_getLast h.ends_ne_nil⟩
  obtain ⟨hretry, hown⟩ := h.result_eq hlast
  refine ⟨last, hlast, ?_, h.rounds, ?_, h.commits, fun hok => ?_, fun hnot => ?_,
    fun {fault} hfault => ?_, fun {result} => hown result⟩
  · have := h.length_le
    omega
  · have hreports := h.reports hlast
    rwa [Nat.add_sub_cancel' hne] at hreports
  · cases last
    case committed => rfl
    case retryable fault =>
      rw [(hretry fault rfl).2] at hok
      cases hok
    all_goals
      rw [hown _ rfl] at hok
      cases hok
  · cases r
    case ok => exact absurd rfl hnot
    case error stop => exact hrows ⟨stop, rfl⟩
  · obtain ⟨hlength, hr⟩ := hretry fault hfault
    refine ⟨hlength.trans (Nat.sub_add_cancel hpos), ?_⟩
    rw [hr, hlength, Nat.add_comm]

-- Whatever fails on the way, the unit is done after so many attempts, and short of an overflow these
-- are its accounts.
theorem execute_accounted (hunit : unit.Proper) (hw : unit.Admitted config w) (state : σ) :
    ∃ marks r state' w', (unit.execute config state).Plays w marks (r, state') w' ∧
      w'.reports = w.reports ++ marks.filterMap Mark.report? ∧
      (r ≠ .error .overflow → ∃ ends last,
        Follow config (config.correlation unit.name) unit state w.store ends state' w'.store ∧
        Accounted config unit.name w.store.rows w'.store.rows ends last marks r) := by
  have hplain : (attempts config (config.correlation unit.name) unit 1 (config.attempts - 1)
      state).Only Request.Plain := hunit.attempts_plain
  obtain ⟨marks, ⟨r, state'⟩, w₁, hplays⟩ := hplain.exists_plays w
  obtain ⟨w', hexecute, hstore⟩ : ∃ w', (unit.execute config state).Plays w marks (r, state') w' ∧
      w'.store = w₁.store := by
    refine withStorage_plays (fun _ => hw.storage) fun v hv hcoarse => ?_
    refine withCoarse_plays (hcoarse ▸ hw.coarse) fun v' hv' => ?_
    exact hplays.claimedBy hplain (hv'.trans hv) _
  refine ⟨marks, r, state', w', hexecute, hexecute.reports_eq, fun hr => ?_⟩
  obtain ⟨ends, hfollow, haccounts, hrows⟩ := attempts_accounts hunit hr hplays
  rw [hstore]
  obtain ⟨last, haccounted⟩ := haccounts.accounted hrows
  exact ⟨ends, last, hfollow, haccounted⟩

-- A store that fails once at each step of an attempt.
def failing : World where
  store := ((Store.new.inject .begin (.unavailable "store")).inject .find (.deadlock "rows")).inject
    .commit (.conflict "rows")

theorem execute_accounted_makeDirectory : (Namespace.makeDirectory "/a").Proper ∧
    (Namespace.makeDirectory "/a").Admitted {} failing ∧ ∃ marks r state' w' ends last,
      ((Namespace.makeDirectory "/a").execute {} ()).Plays failing marks (r, state') w' ∧
      r.isOk ∧ w'.reports.length = 4 ∧
      Follow {} "mkdir" (Namespace.makeDirectory "/a") () failing.store ends state' w'.store ∧
      Accounted {} "mkdir" failing.store.rows w'.store.rows ends last marks r := by
  have hunit : (Namespace.makeDirectory "/a").Proper :=
    .ofTask fun _ => Namespace.makeDirectory_straight
  have hw : (Namespace.makeDirectory "/a").Admitted {} failing := ⟨nofun, rfl⟩
  obtain ⟨marks, r, state', w', hplays, -, haccounts⟩ := execute_accounted hunit hw ()
  have hrun : (((Namespace.makeDirectory "/a").execute {} ()).run failing).any fun x =>
      x.1.1.isOk && x.2.reports.length == 4 := by
    decide +kernel
  rw [hplays.run_eq] at hrun
  obtain ⟨hok, hreports⟩ : r.isOk = true ∧ w'.reports.length = 4 := by simpa using hrun
  have hshort : r ≠ .error .overflow := by
    rintro rfl
    cases hok
  obtain ⟨ends, last, hfollow, haccounted⟩ := haccounts hshort
  exact ⟨hunit, hw, marks, r, state', w', ends, last, hplays, hok, hreports, hfollow, haccounted⟩

end UnitOfWork

end NamespaceService
