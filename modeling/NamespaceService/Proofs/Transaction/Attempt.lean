import NamespaceService.Proofs.Transaction.Reads

namespace NamespaceService

open Program

namespace Request

theorem Reads.plain {tx : TxId} {r : Request} (h : r.Reads tx) : r.Plain := by
  cases h <;> trivial

theorem Reads.ne_commit {tx : TxId} {r : Request} (h : r.Reads tx) (tx' : TxId)
    (changes : List Change) : r ≠ .store (.commit tx' changes) := by
  cases h <;> exact fun heq => by cases heq

-- Requests with which an attempt ends.
inductive Closes : Request → Prop
  | commit (tx : TxId) (changes : List Change) : Closes (.store (.commit tx changes))
  | rollback (tx : TxId) : Closes (.store (.rollback tx))
  | log (line : LogLine) : Closes (.log line)

theorem Closes.plain {r : Request} (h : r.Closes) : r.Plain := by
  cases h <;> trivial

end Request

namespace Stage.Reads

variable {ε α : Type} {m : Stage ε α}

theorem plain (h : Reads m) (c : Context) : Only Request.Plain (m c) :=
  (h c).mono (fun _ => Request.Reads.plain) fun _ _ => trivial

theorem ne_commit (h : Reads m) (c : Context) :
    Only (fun r => ∀ tx changes, r ≠ .store (.commit tx changes)) (m c) :=
  (h c).mono (fun _ hr => hr.ne_commit) fun _ _ => trivial

end Stage.Reads

namespace Program

variable (tx : TxId) (held : Nat) (changes : List Change)

-- The commit is the first and last thing that is asked of the store.
theorem commit_eq : ∃ next, Program.commit tx held changes = ask (.store (.commit tx changes)) next ∧
    ∀ result, (next result).Settles fun r => r = result.mapError CommitRefusal.toFault := by
  refine ⟨_, rfl, fun result => ?_⟩
  cases result
  case ok => exact ⟨trivial, fun _ => rfl⟩
  case error refusal =>
    cases refusal
    case fault => rfl
    case stale => exact ⟨trivial, fun _ => rfl⟩

theorem commit_closes : (Program.commit tx held changes).Only Request.Closes := by
  refine ⟨.commit tx changes, fun result => ?_⟩
  cases result
  case ok => exact ⟨.log _, fun _ => trivial⟩
  case error refusal =>
    cases refusal
    case fault => trivial
    case stale => exact ⟨.log _, fun _ => trivial⟩

end Program

namespace Context

-- Changes have to be covered by write locks once the lock phase is over.
def covered? (c : Context) : Except Fault Unit :=
  if c.sealed then c.checkCoverage else .ok ()

end Context

namespace Action

variable {σ : Timeline} {c c' : Context} {t u n : Nat} {tx : TxId} {changes : List Change}

theorem commit_eq (c : Context) : Action.commit c = match c.covered? with
    | .error fault => .done (.error fault, c)
    | .ok () => do
      Program.log .debug s!"committing {c.changes.length} changes under {c.locks.size} locks"
      let result ← Program.commit c.tx c.locks.size c.changes
      return (result, { c with changes := [] }) :=
  rfl

theorem commit_closes : Only Request.Closes (Action.commit c) := by
  rw [commit_eq]
  split
  case h_1 => trivial
  case h_2 =>
    exact Only.bind (.log .log) fun _ => Only.bind (Program.commit_closes ..) fun _ => trivial

theorem commit_commitsLast : CommitsLast (·.1 = .ok ()) (Action.commit c) := by
  rw [commit_eq]
  split
  case h_1 => trivial
  case h_2 =>
    have ⟨next, heq, hnext⟩ := Program.commit_eq c.tx c.locks.size c.changes
    rw [heq]
    refine fun _ => ⟨Keeps.bind (hnext (.ok ())) fun r hr => ?_, fun refusal => ?_⟩
    · exact hr
    · exact (hnext (.error refusal)).commitsLast.bind (fun _ => trivial) fun r hr => hr

theorem commit_reaches (h : Program.Reaches σ (.commit tx changes) n (Action.commit c) t) :
    c.covered? = .ok () ∧ tx = c.tx ∧ changes = c.changes := by
  rw [commit_eq] at h
  split at h
  case h_1 => cases h
  case h_2 hcovered =>
    refine ⟨hcovered, ?_⟩
    have ⟨next, heq, hnext⟩ := Program.commit_eq c.tx c.locks.size c.changes
    rw [heq] at h
    obtain ⟨hlog, -⟩ | ⟨m, _, -, -, h⟩ := h
    · cases hlog
    · obtain ⟨hcall, -⟩ | ⟨k, x, -, -, h⟩ := h
      · cases hcall
        exact ⟨rfl, rfl⟩
      · obtain h | ⟨r, s, -, h⟩ := reaches_bind.mp h
        · exact absurd h (hnext x).not_reaches
        · cases h

-- A transaction that does not end with an error has committed; the others were not covered, or were
-- refused.
theorem commit_runs {r : Except Fault Unit} (h : Program.Runs σ (Action.commit c) t (r, c') u) :
    c'.tx = c.tx ∧ ((∃ fault, r = .error fault ∧ c.covered? = .error fault) ∨
      c.covered? = .ok () ∧ ∃ n x, t ≤ n ∧ n < u ∧
        σ.Answers n (.store (.commit c.tx c.changes)) x ∧ r = x.mapError CommitRefusal.toFault) := by
  rw [commit_eq] at h
  split at h
  case h_1 fault hcovered =>
    cases h.1
    exact ⟨rfl, .inl ⟨fault, rfl, hcovered⟩⟩
  case h_2 hcovered =>
    have ⟨next, heq, hnext⟩ := Program.commit_eq c.tx c.locks.size c.changes
    rw [heq] at h
    obtain ⟨m, _, hm, -, n, x, hn, hx, h⟩ := h
    obtain ⟨r, v, hr, h⟩ := runs_bind.mp h
    have hle := hm.le.trans (m.le_succ.trans hn.le)
    have hlt := hr.le.trans h.2.le
    cases h.1
    exact ⟨rfl, .inr ⟨hcovered, n, x, hle, hlt, hx, (hnext x).runs hr⟩⟩

end Action

namespace UnitOfWork

variable {α : Type} {σ : Timeline} {config : TransactionConfig} {name operation : String}
  {requests : Except Fault RequestSet} {task : Resolved → Task α} {t u n number left : Nat}
  {tx : TxId} {changes : List Change} {c : Context} {a : α}

theorem rollback_only (P : Request → Prop) (hlog : ∀ line, P (.log line))
    (hrollback : ∀ tx, P (.store (.rollback tx))) : (rollback name c).Only P := by
  refine Only.bind (Only.bind (.call (hrollback _)) fun _ => trivial) fun (r, _) => ?_
  cases r
  case ok => trivial
  case error => exact .log hlog

theorem rollback_closes : (rollback name c).Only Request.Closes :=
  rollback_only _ .log .rollback

theorem rollback_ne_commit :
    (rollback name c).Only fun r => ∀ tx changes, r ≠ .store (.commit tx changes) :=
  rollback_only _ (fun _ _ _ h => by cases h) fun _ _ _ h => by cases h

theorem commit_closes : (commit name a c).Only Request.Closes := by
  refine Action.commit_closes.bind fun (r, c') => ?_
  cases r
  case ok => trivial
  case error fault => exact rollback_closes.bind fun _ => trivial

theorem commit_commitsLast : (commit name a c).CommitsLast (· = .committed a) := by
  refine Action.commit_commitsLast.bind (fun (r, c') => ?_) fun (r, c') hr => ?_
  · cases r
    case ok => trivial
    case error fault =>
      have hrollback : (rollback name c').CommitsLast fun _ => False := .of_only rollback_ne_commit
      exact hrollback.bind (fun _ => trivial) fun _ h => h.elim
  · cases hr
    rfl

theorem commit_reaches (h : (commit name a c).Reaches σ (.commit tx changes) n t) :
    t ≤ n ∧ c.covered? = .ok () ∧ tx = c.tx ∧ changes = c.changes := by
  refine ⟨h.le, ?_⟩
  obtain h | ⟨⟨r, c'⟩, s, -, h⟩ := reaches_bind.mp h
  · exact Action.commit_reaches h
  · cases r
    case ok => cases h
    case error fault =>
      obtain h | ⟨_, _, -, h⟩ := reaches_bind.mp h
      · exact absurd rfl (rollback_ne_commit.reaches h tx changes)
      · cases h

-- An attempt that began after `t`: it took its locks, and then did its work.
structure Attempted (σ : Timeline) (config : TransactionConfig) (name : String)
    (requests : Except Fault RequestSet) (task : Resolved → Task α) (t : Nat) where
  start : Nat
  le : t ≤ start
  tx : TxId
  begun : σ.Answers start (.store .begin) (.ok tx)
  lockedFrom : Nat
  lt : start < lockedFrom
  resolved : Resolved
  locked : Context
  lockedAt : Nat
  locks : Program.Runs σ (lockRows config name requests (.new tx)) lockedFrom (.ok resolved, locked)
    lockedAt
  result : Except Stop α
  finish : Context
  doneAt : Nat
  works : Program.Runs σ (task resolved locked) lockedAt (result, finish) doneAt

-- How an attempt ends, with what it asked of the store in the end.
inductive Ends (σ : Timeline) (config : TransactionConfig) (name : String)
    (requests : Except Fault RequestSet) (task : Resolved → Task α) (t u : Nat) :
    AttemptEnd α → Prop
  | unbegun {start : Nat} {fault : Fault}
      (refused : σ.Answers start (.store .begin) (.error fault)) :
    Ends σ config name requests task t u (.ofLocking fault)
  | unlocked {s v : Nat} {tx : TxId} {fault : Fault} {c : Context}
      (locks : Program.Runs σ (lockRows config name requests (.new tx)) s (.error fault, c) v) :
    Ends σ config name requests task t u (.ofLocking fault)
  | stopped (o : Attempted σ config name requests task t) {stop : Stop}
      (result_eq : o.result = .error stop) (le : o.doneAt ≤ u)
      (rolledBack : stop ≠ .overflow → ∃ n, o.doneAt ≤ n ∧ n < u ∧
        σ.turn n = .call (.rollback o.finish.tx)) :
    Ends σ config name requests task t u (.ofStop stop)
  | uncovered (o : Attempted σ config name requests task t) {fault : Fault}
      (result_eq : ∃ a, o.result = .ok a) (covered : o.finish.covered? = .error fault)
      (le : o.doneAt ≤ u) :
    Ends σ config name requests task t u (.ofCommit fault)
  | refused (o : Attempted σ config name requests task t) {refusal : CommitRefusal} {n : Nat}
      (result_eq : ∃ a, o.result = .ok a) (le : o.doneAt ≤ n) (lt : n < u)
      (answer : σ.Answers n (.store (.commit o.finish.tx o.finish.changes)) (.error refusal)) :
    Ends σ config name requests task t u (.ofCommit refusal.toFault)
  | committed (o : Attempted σ config name requests task t) {a : α} {n : Nat}
      (result_eq : o.result = .ok a) (covered : o.finish.covered? = .ok ()) (le : o.doneAt ≤ n)
      (lt : n < u)
      (answer : σ.Answers n (.store (.commit o.finish.tx o.finish.changes)) (.ok ())) :
    Ends σ config name requests task t u (.committed a)

-- What an attempt does once its task has ended.
def conclude (name : String) : Except Stop α × Context → Program (AttemptEnd α × Unit)
  | (.ok a, c) => do return (← commit name a c, ())
  | (.error .overflow, _) => return (.overflow, ())
  | (.error (.failed failure), c) => do
    rollback name c
    return (.ofStop (.failed failure), ())

theorem transact_ofTask : transact config name (ofTask operation requests task) () tx = (do
    Program.log .debug s!"{name} tx started"
    match ← lockRows config name requests (.new tx) with
    | (.error fault, c) => do
      rollback name c
      return (.ofLocking fault, ())
    | (.ok resolved, c) => task resolved c >>= conclude name) := by
  refine congrArg (Program.bind _) (funext fun _ => congrArg (Program.bind _) (funext fun r => ?_))
  obtain ⟨r, c⟩ := r
  cases r
  case error => rfl
  case ok resolved =>
    refine (Program.bind_assoc (task resolved c) _ _).trans ?_
    refine congrArg (Program.bind _) (funext fun r => ?_)
    obtain ⟨r, c⟩ := r
    cases r
    case ok => rfl
    case error stop => cases stop <;> rfl

theorem attempt_ofTask : attempt config name (ofTask operation requests task) () = (do
    match ← Program.begin with
    | .error fault => return (.ofLocking fault, ())
    | .ok tx => transact config name (ofTask operation requests task) () tx) :=
  rfl

theorem conclude_closes {r : Except Stop α × Context} :
    (conclude name r).Only Request.Closes := by
  obtain ⟨r, c⟩ := r
  cases r
  case ok a => exact commit_closes.bind fun _ => trivial
  case error stop =>
    cases stop
    case overflow => trivial
    case failed => exact rollback_closes.bind fun _ => trivial

theorem conclude_commitsLast {r : Except Stop α × Context} :
    (conclude name r).CommitsLast fun e => ∃ a, e.1 = .committed a := by
  obtain ⟨r, c⟩ := r
  cases r
  case ok a =>
    refine commit_commitsLast.bind (fun _ => trivial) fun e he => ?_
    exact ⟨a, he⟩
  case error stop =>
    cases stop
    case overflow => trivial
    case failed failure =>
      have hrollback : (rollback name c).CommitsLast fun _ => False := .of_only rollback_ne_commit
      exact hrollback.bind (fun _ => trivial) fun _ h => h.elim

theorem conclude_reaches {r : Except Stop α}
    (h : (conclude name (r, c)).Reaches σ (.commit tx changes) n t) :
    (∃ a, r = .ok a) ∧ t ≤ n ∧ c.covered? = .ok () ∧ tx = c.tx ∧ changes = c.changes := by
  cases r
  case ok a =>
    refine ⟨⟨a, rfl⟩, ?_⟩
    obtain h | ⟨_, _, -, h⟩ := reaches_bind.mp h
    · exact commit_reaches h
    · cases h
  case error stop =>
    cases stop
    case overflow => cases h
    case failed =>
      obtain h | ⟨_, _, -, h⟩ := reaches_bind.mp h
      · exact absurd rfl (rollback_ne_commit.reaches h tx changes)
      · cases h

theorem rollback_runs {x : Unit} (h : (rollback name c).Runs σ t x u) :
    ∃ n, t ≤ n ∧ n < u ∧ σ.turn n = .call (.rollback c.tx) := by
  obtain ⟨r, s, h, hs⟩ := runs_bind.mp h
  obtain ⟨result, v, ⟨n, y, hn, hy, hr⟩, h⟩ := runs_bind.mp h
  exact ⟨n, hn.le, hr.le.trans (h.le.trans hs.le), hy.1⟩

variable (hreads : ∀ resolved, Stage.Reads (task resolved))

section

include hreads

theorem transact_plain :
    (transact config name (ofTask operation requests task) () tx).Only Request.Plain := by
  rw [transact_ofTask]
  refine Only.bind (.log fun _ => trivial) fun _ =>
    Only.bind (lockRows_reads.plain _) fun (r, c) => ?_
  cases r
  case error => exact (rollback_closes.mono fun _ => Request.Closes.plain).bind fun _ => trivial
  case ok resolved =>
    exact Only.bind ((hreads resolved).plain c) fun _ => conclude_closes.mono fun _ => Request.Closes.plain

theorem transact_commitsLast :
    (transact config name (ofTask operation requests task) () tx).CommitsLast
      fun e => ∃ a, e.1 = .committed a := by
  rw [transact_ofTask]
  have hlocks : Program.CommitsLast (fun _ => False) (lockRows config name requests (.new tx)) :=
    .of_only (lockRows_reads.ne_commit _)
  refine fun _ => hlocks.bind (fun (r, c) => ?_) fun _ h => h.elim
  cases r
  case error =>
    have hrollback : (rollback name c).CommitsLast fun _ => False := .of_only rollback_ne_commit
    exact hrollback.bind (fun _ => trivial) fun _ h => h.elim
  case ok resolved =>
    have htask : Program.CommitsLast (fun _ => False) (task resolved c) :=
      .of_only ((hreads resolved).ne_commit c)
    exact htask.bind (fun _ => conclude_commitsLast) fun _ h => h.elim

theorem attempt_plain :
    (attempt config name (ofTask operation requests task) ()).Only Request.Plain := by
  rw [attempt_ofTask]
  refine Only.bind (.call trivial) fun r => ?_
  cases r
  case error => trivial
  case ok tx => exact transact_plain hreads

theorem attempt_commitsLast :
    (attempt config name (ofTask operation requests task) ()).CommitsLast
      fun e => ∃ a, e.1 = .committed a := by
  rw [attempt_ofTask]
  refine fun r => ?_
  cases r
  case error => trivial
  case ok tx => exact transact_commitsLast hreads

theorem attempt_reaches
    (h : (attempt config name (ofTask operation requests task) ()).Reaches σ
      (.commit tx changes) n t) :
    ∃ o : Attempted σ config name requests task t, (∃ a, o.result = .ok a) ∧ o.doneAt ≤ n ∧
      o.finish.covered? = .ok () ∧ tx = o.finish.tx ∧ changes = o.finish.changes := by
  rw [attempt_ofTask] at h
  obtain ⟨heq, -⟩ | ⟨start, x, hstart, hx, h⟩ := h
  · cases heq
  cases x
  case error => cases h
  case ok tx' =>
    change (transact config name (ofTask operation requests task) () tx').Reaches σ _ n _ at h
    rw [transact_ofTask] at h
    obtain h | ⟨_, s, hs, h⟩ := reaches_bind.mp h
    · exact absurd h Yields.of_log.not_reaches
    obtain h | ⟨⟨r, c⟩, v, hlocks, h⟩ := reaches_bind.mp h
    · exact absurd rfl ((lockRows_reads.ne_commit _).reaches h tx changes)
    cases r
    case error fault =>
      obtain h | ⟨_, _, -, h⟩ := reaches_bind.mp h
      · exact absurd rfl (rollback_ne_commit.reaches h tx changes)
      · cases h
    case ok resolved =>
      obtain h | ⟨⟨r, c'⟩, w, hwork, h⟩ := reaches_bind.mp h
      · exact absurd rfl (((hreads resolved).ne_commit c).reaches h tx changes)
      have ⟨hr, hle, hcommit⟩ := conclude_reaches h
      exact ⟨⟨start, hstart.le, tx', hx, s, hs.le, resolved, c, v, hlocks, r, c', w, hwork⟩,
        hr, hle, hcommit⟩

end

theorem conclude_runs {e : AttemptEnd α} (o : Attempted σ config name requests task t)
    (h : (conclude name (o.result, o.finish)).Runs σ o.doneAt (e, ()) u) :
    Ends σ config name requests task t u e := by
  have hle := h.le
  cases hr : o.result
  case error stop =>
    rw [hr] at h
    cases stop
    case overflow =>
      cases h.1
      exact .stopped o hr hle fun hne => absurd rfl hne
    case failed failure =>
      obtain ⟨_, s, hrollback, heq, rfl⟩ := runs_bind.mp h
      cases heq
      exact .stopped o hr hle fun _ => rollback_runs hrollback
  case ok a =>
    rw [hr] at h
    obtain ⟨_, s, hcommit, heq, rfl⟩ := runs_bind.mp h
    cases heq
    obtain ⟨⟨r, c'⟩, v, haction, hrest⟩ := runs_bind.mp hcommit
    obtain ⟨-, ⟨fault, rfl, hfault⟩ | ⟨hcovered, n, x, hn, hlt, hx, rfl⟩⟩ :=
      Action.commit_runs haction
    · obtain ⟨_, w, -, heq, -⟩ := runs_bind.mp hrest
      cases heq
      exact .uncovered o ⟨a, hr⟩ hfault hle
    · cases x
      case error refusal =>
        have hlt := hlt.trans_le hrest.le
        obtain ⟨_, w, -, heq, -⟩ := runs_bind.mp hrest
        cases heq
        exact .refused o ⟨a, hr⟩ hn hlt hx
      case ok =>
        have ⟨heq, hv⟩ := hrest
        cases heq
        exact .committed o hr hcovered hn (hlt.trans_le hv.le) hx

theorem attempt_runs {e : AttemptEnd α}
    (h : (attempt config name (ofTask operation requests task) ()).Runs σ t (e, ()) u) :
    Ends σ config name requests task t u e := by
  rw [attempt_ofTask] at h
  obtain ⟨start, x, hstart, hx, h⟩ := h
  cases x
  case error fault =>
    cases h.1
    exact .unbegun hx
  case ok tx =>
    change (transact config name (ofTask operation requests task) () tx).Runs σ _ _ u at h
    rw [transact_ofTask] at h
    obtain ⟨_, s, hs, h⟩ := runs_bind.mp h
    obtain ⟨⟨r, c⟩, v, hlocks, h⟩ := runs_bind.mp h
    cases r
    case error fault =>
      obtain ⟨_, w, -, heq, -⟩ := runs_bind.mp h
      cases heq
      exact .unlocked hlocks
    case ok resolved =>
      obtain ⟨⟨r, c'⟩, w, hwork, h⟩ := runs_bind.mp h
      exact conclude_runs ⟨start, hstart.le, tx, hx, s, hs.le, resolved, c, v, hlocks, r, c', w,
        hwork⟩ h

theorem report_settles {number : Nat} {outcome : Option AttemptOutcome} :
    (report operation number outcome).Settles fun _ => True := by
  cases outcome
  case none => trivial
  case some => exact ⟨trivial, fun _ => trivial⟩

-- What is done after an attempt, where `again` is the next one.
def proceed (name operation : String) (number left : Nat)
    (again : Nat → Program (Except Stop α × Unit)) (e : AttemptEnd α) :
    Program (Except Stop α × Unit) := do
  report operation number e.outcome?
  match e with
  | .committed value =>
    Program.log .debug (LogLine.timed s!"{name} committed on attempt {number}")
    return (.ok value, ())
  | .aborted failure =>
    Program.log .warn s!"{name} aborted on attempt {number}: {failure.message}"
    return (.error (.failed failure), ())
  | .overflow => return (.error .overflow, ())
  | .retryable fault =>
    let total := number + left
    Program.log .warn s!"{name} attempt {number} of {total} failed, retrying: {fault.message}"
    match left with
    | left + 1 => again left
    | 0 =>
      Program.log .error s!"{name} giving up after {number} attempts: {fault.message}"
      return (.error (.failed (.retriesExhausted number fault)), ())

theorem attempts_ofTask :
    attempts config name (ofTask operation requests task) number left () = (do
      let (e, _) ← attempt config name (ofTask operation requests task) ()
      proceed name operation number left (fun left =>
        attempts config name (ofTask operation requests task) (number + 1) left ()) e) := by
  rw [attempts.eq_def]
  refine congrArg (Program.bind _) (funext fun (e, _) => congrArg (Program.bind _) (funext fun _ => ?_))
  cases e
  case retryable => cases left <;> rfl
  all_goals rfl

section Proceed

variable {again : Nat → Program (Except Stop α × Unit)} {e : AttemptEnd α}

theorem proceed_plain (h : ∀ left', left = left' + 1 → (again left').Only Request.Plain) :
    (proceed name operation number left again e).Only Request.Plain := by
  refine Only.bind (report_settles.mono (fun r hr => by cases r <;> trivial) fun _ _ => trivial) fun _ => ?_
  cases e
  case committed => exact Only.bind (.log fun _ => trivial) fun _ => trivial
  case aborted => exact Only.bind (.log fun _ => trivial) fun _ => trivial
  case overflow => trivial
  case retryable fault =>
    refine Only.bind (.log fun _ => trivial) fun _ => ?_
    obtain _ | left := left
    · exact Only.bind (.log fun _ => trivial) fun _ => trivial
    · exact h left rfl

theorem proceed_commitsLast (h : ∀ left', left = left' + 1 →
    (again left').CommitsLast fun r => ∃ a, r.1 = .ok a) :
    (proceed name operation number left again e).CommitsLast fun r => ∃ a, r.1 = .ok a := by
  have hreport : (report operation number e.outcome?).CommitsLast fun _ => False :=
    report_settles.commitsLast
  refine hreport.bind (fun _ => ?_) fun _ h => h.elim
  cases e
  case committed => exact fun _ => trivial
  case aborted => exact fun _ => trivial
  case overflow => trivial
  case retryable fault =>
    refine fun _ => ?_
    obtain _ | left := left
    · exact fun _ => trivial
    · exact h left rfl

theorem proceed_settles {a : α} (he : e = .committed a) :
    (proceed name operation number left again e).Settles fun r => ∃ a, r.1 = .ok a := by
  subst he
  exact report_settles.bind fun _ _ => ⟨trivial, fun _ => ⟨a, rfl⟩⟩

theorem proceed_reaches {call : Store.Call}
    (h : (proceed name operation number left again e).Reaches σ call n t) :
    ∃ left' s, left = left' + 1 ∧ t ≤ s ∧ (again left').Reaches σ call n s := by
  obtain h | ⟨_, s, hs, h⟩ := reaches_bind.mp h
  · exact absurd h report_settles.not_reaches
  have hlog {β : Type} {level : Level} {message : String} {b : β} {s : Nat} :
      ¬(do Program.log level message; return b : Program β).Reaches σ call n s :=
    (Yields.of_log.bind (.done b)).not_reaches
  cases e
  case committed => exact absurd h hlog
  case aborted => exact absurd h hlog
  case overflow => cases h
  case retryable fault =>
    obtain h | ⟨_, v, hv, h⟩ := reaches_bind.mp h
    · exact absurd h Yields.of_log.not_reaches
    obtain _ | left := left
    · exact absurd h hlog
    · exact ⟨left, v, rfl, hs.le.trans hv.le, h⟩

-- What an attempt leads to: its own end is the end of all, or another attempt follows.
theorem proceed_runs {r : Except Stop α}
    (h : (proceed name operation number left again e).Runs σ t (r, ()) u) :
    match e with
    | .committed a => r = .ok a
    | .aborted failure => r = .error (.failed failure)
    | .overflow => r = .error .overflow
    | .retryable fault => r = .error (.failed (.retriesExhausted number fault)) ∨
      ∃ left' s, left = left' + 1 ∧ t ≤ s ∧ (again left').Runs σ s (r, ()) u := by
  obtain ⟨_, s, hs, h⟩ := runs_bind.mp h
  have hlog {level : Level} {message : String} {b c : Except Stop α × Unit} {s : Nat}
      (h : (do Program.log level message; return b : Program _).Runs σ s c u) : c.1 = b.1 :=
    congrArg Prod.fst ((Yields.of_log.bind (.done b)).runs h)
  cases e
  case committed a => exact hlog h
  case aborted failure => exact hlog h
  case overflow => exact congrArg Prod.fst h.1.symm
  case retryable fault =>
    obtain ⟨_, v, hv, h⟩ := runs_bind.mp h
    obtain _ | left := left
    · exact .inl (hlog h)
    · exact .inr ⟨left, v, rfl, hs.le.trans hv.le, h⟩

end Proceed

theorem Attempted.mono {s : Nat} (o : Attempted σ config name requests task s) (h : t ≤ s) :
    ∃ o' : Attempted σ config name requests task t, o'.result = o.result ∧
      o'.doneAt = o.doneAt ∧ o'.finish = o.finish :=
  ⟨{ o with le := h.trans o.le }, rfl, rfl, rfl⟩

section

include hreads

theorem attempts_plain :
    (attempts config name (ofTask operation requests task) number left ()).Only Request.Plain := by
  induction left generalizing number
  case zero =>
    rw [attempts_ofTask]
    exact (attempt_plain hreads).bind fun _ => proceed_plain fun _ h => by cases h
  case succ left ih =>
    rw [attempts_ofTask]
    refine (attempt_plain hreads).bind fun _ => proceed_plain fun _ h => ?_
    cases h
    exact ih

theorem attempts_commitsLast :
    (attempts config name (ofTask operation requests task) number left ()).CommitsLast
      fun r => ∃ a, r.1 = .ok a := by
  induction left generalizing number
  case zero =>
    rw [attempts_ofTask]
    refine (attempt_commitsLast hreads).bind (fun _ => ?_) fun _ ⟨_, he⟩ => proceed_settles he
    exact proceed_commitsLast fun _ h => by cases h
  case succ left ih =>
    rw [attempts_ofTask]
    refine (attempt_commitsLast hreads).bind (fun _ => ?_) fun _ ⟨_, he⟩ => proceed_settles he
    refine proceed_commitsLast fun _ h => ?_
    cases h
    exact ih

theorem attempts_reaches
    (h : (attempts config name (ofTask operation requests task) number left ()).Reaches σ
      (.commit tx changes) n t) :
    ∃ o : Attempted σ config name requests task t, (∃ a, o.result = .ok a) ∧ o.doneAt ≤ n ∧
      o.finish.covered? = .ok () ∧ tx = o.finish.tx ∧ changes = o.finish.changes := by
  induction left generalizing number t
  case zero =>
    rw [attempts_ofTask] at h
    obtain h | ⟨_, s, -, h⟩ := reaches_bind.mp h
    · exact attempt_reaches hreads h
    · obtain ⟨_, _, hleft, -⟩ := proceed_reaches h
      cases hleft
  case succ left ih =>
    rw [attempts_ofTask] at h
    obtain h | ⟨_, s, hs, h⟩ := reaches_bind.mp h
    · exact attempt_reaches hreads h
    · obtain ⟨_, v, hleft, hv, h⟩ := proceed_reaches h
      cases hleft
      obtain ⟨o, ho⟩ := ih h
      obtain ⟨o', hr, hd, hf⟩ := o.mono (hs.le.trans hv)
      exact ⟨o', hr ▸ hd ▸ hf ▸ ho⟩

end

-- The first attempt, and what it leads to.
theorem attempts_step {r : Except Stop α}
    (h : (attempts config name (ofTask operation requests task) number left ()).Runs σ t (r, ()) u) :
    ∃ e s, s ≤ u ∧ Ends σ config name requests task t s e ∧
      match e with
      | .committed a => r = .ok a
      | .aborted failure => r = .error (.failed failure)
      | .overflow => r = .error .overflow
      | .retryable fault => r = .error (.failed (.retriesExhausted number fault)) ∨
        ∃ left' v, left = left' + 1 ∧ t ≤ v ∧ (attempts config name
          (ofTask operation requests task) (number + 1) left' ()).Runs σ v (r, ()) u := by
  rw [attempts_ofTask] at h
  obtain ⟨⟨e, _⟩, s, hs, h⟩ := runs_bind.mp h
  refine ⟨e, s, h.le, attempt_runs hs, ?_⟩
  have hp := proceed_runs h
  cases e
  case retryable fault =>
    obtain hr | ⟨left', v, hleft, hv, hruns⟩ := hp
    · exact .inl hr
    · exact .inr ⟨left', v, hleft, hs.le.trans hv, hruns⟩
  all_goals exact hp

-- All attempts end as one of them does, unless every one of them can be retried.
theorem attempts_runs {r : Except Stop α}
    (h : (attempts config name (ofTask operation requests task) number left ()).Runs σ t (r, ()) u) :
    ∃ e s v, t ≤ s ∧ v ≤ u ∧ Ends σ config name requests task s v e ∧
      match e with
      | .committed a => r = .ok a
      | .aborted failure => r = .error (.failed failure)
      | .overflow => r = .error .overflow
      | .retryable fault => ∃ n, r = .error (.failed (.retriesExhausted n fault)) := by
  induction left generalizing number t
  case zero =>
    obtain ⟨e, v, hv, hends, hr⟩ := attempts_step h
    refine ⟨e, t, v, le_rfl, hv, hends, ?_⟩
    cases e
    case retryable =>
      obtain hr | ⟨_, _, hleft, -⟩ := hr
      · exact ⟨number, hr⟩
      · cases hleft
    all_goals exact hr
  case succ left ih =>
    obtain ⟨e, v, hv, hends, hr⟩ := attempts_step h
    cases e
    case retryable fault =>
      obtain hr | ⟨_, w, hleft, hw, hruns⟩ := hr
      · exact ⟨.retryable fault, t, v, le_rfl, hv, hends, number, hr⟩
      · cases hleft
        obtain ⟨e, s, v, hs, hv, hends, hr⟩ := ih hruns
        exact ⟨e, s, v, hw.trans hs, hv, hends, hr⟩
    case committed a => exact ⟨.committed a, t, v, le_rfl, hv, hends, hr⟩
    case aborted failure => exact ⟨.aborted failure, t, v, le_rfl, hv, hends, hr⟩
    case overflow => exact ⟨.overflow, t, v, le_rfl, hv, hends, hr⟩

theorem execute_ofTask : (ofTask name requests task).execute config () =
    (attempts config (config.correlation name) (ofTask name requests task) 1
      (config.attempts - 1) ()).claimedBy (config.correlation name) := by
  have hcoarse : (if config.coarseLock then CoarseMode.none else .none) = .none := ite_self _
  simp only [execute, ofTask, hcoarse, withStorage, withCoarse]

section

include hreads

theorem execute_plain :
    ((ofTask name requests task).execute config ()).Only Request.Plain := by
  rw [execute_ofTask]
  exact (attempts_plain hreads).claimedBy fun _ _ => trivial

-- A commit comes after the locks and after the task, and an accepted one is the end.
theorem execute_commitsLast :
    ((ofTask name requests task).execute config ()).CommitsLast fun r => ∃ a, r.1 = .ok a := by
  rw [execute_ofTask]
  exact (attempts_commitsLast hreads).claimedBy

-- What is committed is what the task of some attempt has left, covered by its locks.
theorem execute_reaches
    (h : ((ofTask name requests task).execute config ()).Reaches σ (.commit tx changes) n t) :
    ∃ o : Attempted σ config (config.correlation name) requests task t, (∃ a, o.result = .ok a) ∧
      o.doneAt ≤ n ∧ o.finish.covered? = .ok () ∧ tx = o.finish.tx ∧
      changes = o.finish.changes := by
  rw [execute_ofTask, reaches_claimedBy] at h
  exact attempts_reaches hreads h

end

theorem ofLocking_ne {fault : Fault} {e : AttemptEnd α}
    (h : (∃ a, e = .committed a) ∨ ∃ error, e = .aborted (.operation error)) :
    AttemptEnd.ofLocking fault ≠ e := by
  obtain ⟨a, rfl⟩ | ⟨error, rfl⟩ := h <;> rw [AttemptEnd.ofLocking] <;> split <;> simp
  all_goals split <;> simp

theorem ofCommit_ne {fault : Fault} {e : AttemptEnd α}
    (h : (∃ a, e = .committed a) ∨ ∃ error, e = .aborted (.operation error)) :
    AttemptEnd.ofCommit fault ≠ e := by
  obtain ⟨a, rfl⟩ | ⟨error, rfl⟩ := h <;> rw [AttemptEnd.ofCommit] <;> split <;> simp

theorem ofStop_eq {stop : Stop} {e : AttemptEnd α} (h : AttemptEnd.ofStop stop = e) :
    (∀ a, e ≠ .committed a) ∧
      ∀ error, e = .aborted (.operation error) → stop = .failed (.operation error) := by
  subst h
  cases stop
  case overflow => simp [AttemptEnd.ofStop]
  case failed failure =>
    rw [AttemptEnd.ofStop]
    split
    case h_1 => simp
    case h_2 => simp

theorem Ends.of_committed {e : AttemptEnd α} (h : Ends σ config name requests task t u e)
    (he : e = .committed a) :
    ∃ (o : Attempted σ config name requests task t) (n : Nat), o.result = .ok a ∧
      o.finish.covered? = .ok () ∧ o.doneAt ≤ n ∧ n < u ∧
      σ.Answers n (.store (.commit o.finish.tx o.finish.changes)) (.ok ()) := by
  cases h
  case unbegun => exact absurd he (ofLocking_ne (.inl ⟨a, rfl⟩))
  case unlocked => exact absurd he (ofLocking_ne (.inl ⟨a, rfl⟩))
  case stopped => exact absurd rfl (he ▸ (ofStop_eq he).1 a)
  case uncovered => exact absurd he (ofCommit_ne (.inl ⟨a, rfl⟩))
  case refused => exact absurd he (ofCommit_ne (.inl ⟨a, rfl⟩))
  case committed o b n result_eq covered le lt answer =>
    cases he
    exact ⟨o, n, result_eq, covered, le, lt, answer⟩

theorem Ends.of_aborted {e : AttemptEnd α} {error : OperationError}
    (h : Ends σ config name requests task t u e) (he : e = .aborted (.operation error)) :
    ∃ (o : Attempted σ config name requests task t) (n : Nat),
      o.result = .error (.failed (.operation error)) ∧ o.doneAt ≤ n ∧ n < u ∧
      σ.turn n = .call (.rollback o.finish.tx) := by
  cases h
  case unbegun => exact absurd he (ofLocking_ne (.inr ⟨error, rfl⟩))
  case unlocked => exact absurd he (ofLocking_ne (.inr ⟨error, rfl⟩))
  case stopped o stop result_eq _ rolledBack =>
    have hstop := (ofStop_eq he).2 error rfl
    subst hstop
    have ⟨n, hn, hlt, hturn⟩ := rolledBack (fun h => by cases h)
    exact ⟨o, n, result_eq, hn, hlt, hturn⟩
  case uncovered => exact absurd he (ofCommit_ne (.inr ⟨error, rfl⟩))
  case refused => exact absurd he (ofCommit_ne (.inr ⟨error, rfl⟩))
  case committed => cases he

theorem attempts_runs_ok
    (h : (attempts config name (ofTask operation requests task) number left ()).Runs σ t
      (.ok a, ()) u) :
    ∃ (o : Attempted σ config name requests task t) (n : Nat),
      o.result = .ok a ∧ o.doneAt ≤ n ∧ n < u ∧
      σ.Answers n (.store (.commit o.finish.tx o.finish.changes)) (.ok ()) := by
  obtain ⟨e, s, v, hs, hv, hends, hr⟩ := attempts_runs h
  cases e
  case committed b =>
    cases hr
    obtain ⟨o, n, hresult, -, hn, hlt, hanswer⟩ := hends.of_committed rfl
    obtain ⟨o', hr, hd, hf⟩ := o.mono hs
    exact ⟨o', n, hr.trans hresult, hd ▸ hn, hlt.trans_le hv, hf ▸ hanswer⟩
  case retryable =>
    obtain ⟨_, hr⟩ := hr
    cases hr
  all_goals cases hr

-- A unit that gives a value has committed what its task has left.
theorem execute_runs_ok
    (h : ((ofTask name requests task).execute config ()).Runs σ t (.ok a, ()) u) :
    ∃ (o : Attempted σ config (config.correlation name) requests task t) (n : Nat),
      o.result = .ok a ∧ o.doneAt ≤ n ∧ n < u ∧
      σ.Answers n (.store (.commit o.finish.tx o.finish.changes)) (.ok ()) := by
  rw [execute_ofTask, runs_claimedBy] at h
  exact attempts_runs_ok h

-- A unit that fails for a reason of its own has rolled back.
theorem execute_runs_error {error : OperationError}
    (h : ((ofTask name requests task).execute config ()).Runs σ t
      (.error (.failed (.operation error)), ()) u) :
    ∃ (o : Attempted σ config (config.correlation name) requests task t) (n : Nat),
      o.result = .error (.failed (.operation error)) ∧ o.doneAt ≤ n ∧ n < u ∧
      σ.turn n = .call (.rollback o.finish.tx) := by
  rw [execute_ofTask, runs_claimedBy] at h
  obtain ⟨e, s, v, hs, hv, hends, hr⟩ := attempts_runs h
  cases e
  case aborted failure =>
    cases hr
    obtain ⟨o, n, hresult, hn, hlt, hturn⟩ := hends.of_aborted rfl
    obtain ⟨o', hr, hd, hf⟩ := o.mono hs
    exact ⟨o', n, hr.trans hresult, hd ▸ hn, hlt.trans_le hv, hf ▸ hturn⟩
  case retryable =>
    obtain ⟨_, hr⟩ := hr
    cases hr
  all_goals cases hr

end UnitOfWork

end NamespaceService
