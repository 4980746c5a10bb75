import NamespaceService.Proofs.Namespace.Alone
import NamespaceService.Proofs.Namespace.Freshness
import NamespaceService.Proofs.Transaction.Results
import NamespaceService.Proofs.Transaction.Retries

namespace NamespaceService

open Program

namespace Store

variable {s s' : Store} {tx : TxId} {kind : LockKind} {finder : Finder} {key : Key} {n : Nat}
  {o : Operation} {fault : Fault} {rest : List Fault} {rows : Rows} {version : Key → Nat}

def withFaults (s : Store) (faults : Operation → List Fault) : Store :=
  { s with faults }

-- At most `n` of the queued faults are still to end an attempt, and each of them passes.
structure Due (s : Store) (n : Nat) : Prop where
  passes {o : Operation} {fault : Fault} : o ≠ .rollback → fault ∈ s.faults o → fault.isTransient
  length_le : (s.faults .begin).length + (s.faults .find).length + (s.faults .commit).length ≤ n

theorem Due.congr (h : s.Due n) (hs : ∀ o, o ≠ .rollback → s'.faults o = s.faults o) : s'.Due n where
  passes ho hfault := h.passes ho (hs _ ho ▸ hfault)
  length_le := by
    rw [hs .begin nofun, hs .find nofun, hs .commit nofun]
    exact h.length_le

theorem Due.drop (h : s.Due n) (ho : o ≠ .rollback) (hqueued : s.faults o = fault :: rest)
    (hs : s'.faults = (s.dropFault o).faults) : fault.isTransient ∧ ∃ m, n = m + 1 ∧ s'.Due m := by
  have hlength := h.length_le
  have hdropped : ∀ o', s'.faults o' = if o' = o then rest else s.faults o' := by
    intro o'
    rw [hs]
    by_cases heq : o' = o
    case pos =>
      subst heq
      simp [dropFault, hqueued]
    case neg => simp [dropFault, heq]
  refine ⟨h.passes ho (hqueued ▸ List.mem_cons_self), n - 1, ?_, fun {o'} _ ho' hfault => ?_, ?_⟩
  · cases o <;> simp_all <;> omega
  · rw [hdropped] at hfault
    split at hfault
    case isTrue heq => exact h.passes ho (hqueued ▸ List.mem_cons_of_mem _ hfault)
    case isFalse => exact h.passes ho' hfault
  · simp only [hdropped]
    cases o <;> simp_all <;> omega

theorem Due.withFaults {config : TransactionConfig} {faults : Operation → List Fault}
    (hpass : ∀ o, o ≠ .rollback → ∀ fault ∈ faults o, fault.isTransient)
    (hfew : (faults .begin).length + (faults .find).length + (faults .commit).length <
      config.retryCount.toNat) : (s.withFaults faults).Due (config.attempts - 1) where
  passes ho hfault := hpass _ ho _ hfault
  length_le := by
    have hattempts : config.retryCount.toNat ≤ config.attempts := Nat.le_max_right ..
    simp only [Store.withFaults]
    omega

-- What an attempt starts from, and leaves if it comes to nothing.
structure Stands (s : Store) (rows : Rows) (version : Key → Nat) (n : Nat) : Prop where
  rows_eq : s.rows = rows
  version_eq : s.version = version
  fresh : s.Fresh
  due : s.Due n

-- The transaction has begun, and nothing that it has observed has changed.
structure Underway (s : Store) (tx : TxId) : Prop where
  fresh : s.Fresh
  begun : tx ≤ s.begun
  current {read : Key × Nat} : read ∈ s.observed tx → s.version read.1 = read.2

namespace Underway

theorem congr (h : s.Underway tx) (hversion : s'.version = s.version)
    (hobserved : s'.observed = s.observed) (hbegun : s'.begun = s.begun) : s'.Underway tx where
  fresh tx read hread := hbegun ▸ h.fresh tx read (hobserved ▸ hread)
  begun := hbegun ▸ h.begun
  current hread := hversion ▸ h.current (hobserved ▸ hread)

theorem observe (h : s.Underway tx) : (s.observe tx kind key).Underway tx where
  fresh tx' read hread := by
    rw [observe_begun]
    obtain hread | ⟨rfl, -⟩ := eq_or_mem_of_mem_observe hread
    · exact h.fresh tx' read hread
    · exact h.begun
  begun := by
    rw [observe_begun]
    exact h.begun
  current hread := by
    rw [observe_version]
    obtain hread | ⟨-, rfl⟩ := eq_or_mem_of_mem_observe hread
    · exact h.current hread
    · rfl

theorem asked (h : s.Underway tx) : (s.asked tx kind finder).Underway tx := by
  have hrecord : (s.record (.find tx kind finder)).Underway tx := h.congr rfl rfl rfl
  rw [Store.asked]
  split
  case h_1 => exact hrecord.observe
  case h_2 => exact hrecord

theorem listed (h : s.Underway tx) : (s.listed tx kind finder).Underway tx := by
  have hrecord : (s.record (.findList tx kind finder)).Underway tx := h.congr rfl rfl rfl
  rw [Store.listed]
  generalize s.record (.findList tx kind finder) = t at hrecord
  induction s.rows.lookupList finder generalizing t
  case nil => exact hrecord
  case cons row found ih => exact ih _ hrecord.observe

theorem serves {r : Request} {x : r.Response} (h : s.Underway tx) (hr : r.Reads tx)
    (hx : World.Serves s s' r x) : s'.Underway tx := by
  have hdrop : (s.dropFault .find).Underway tx := h.congr rfl rfl rfl
  cases hr
  case log => exact (show s' = s from hx) ▸ h
  case find kind finder =>
    rw [← show (s.find tx kind finder).2 = s' from congrArg Prod.snd hx]
    obtain ⟨-, heq⟩ | ⟨_, _, -, heq⟩ := s.find_cases tx kind finder
    · exact heq ▸ h.asked
    · exact heq ▸ hdrop
  case findList kind finder =>
    rw [← show (s.findList tx kind finder).2 = s' from congrArg Prod.snd hx]
    obtain ⟨-, heq⟩ | ⟨_, _, -, heq⟩ := s.findList_cases tx kind finder
    · exact heq ▸ h.listed
    · exact heq ▸ hdrop
  case probe finder =>
    rw [← show (s.probe tx finder).2 = s' from congrArg Prod.snd hx]
    exact h.congr rfl rfl rfl

end Underway

-- What changes come to depends on rows and versions only.
theorem foldl_apply_congr (changes : List Change) (hrows : s'.rows = s.rows)
    (hversion : s'.version = s.version) :
    (changes.foldl apply s').rows = (changes.foldl apply s).rows ∧
      (changes.foldl apply s').version = (changes.foldl apply s).version := by
  induction changes generalizing s s'
  case nil => exact ⟨hrows, hversion⟩
  case cons change changes ih =>
    refine ih ?_ (funext fun key => ?_)
    · rw [apply_rows, apply_rows, hrows]
    · rw [apply_version, apply_version, hrows, hversion]

end Store

theorem Program.Keeps.underway {α : Type} {p : Program α} {Good : α → Prop} {tx : TxId} {s s' : Store}
    {a : α} (hp : p.Keeps (Request.Reads tx) Good) (h : p.RunsAlone s a s') (hs : s.Underway tx) :
    s'.Underway tx := by
  induction p generalizing s
  case done =>
    obtain ⟨-, rfl⟩ := h
    exact hs
  case ask r next ih =>
    obtain ⟨x, s₁, hx, hnext⟩ := h
    exact ih x (hp.2 x) hnext (hs.serves hp.1 hx)

namespace AttemptEnd

variable {α : Type} {fault : Fault}

theorem ofLocking_transient (h : fault.isTransient) :
    (ofLocking fault : AttemptEnd α) = .retryable fault :=
  if_pos h

theorem ofCommit_transient (h : fault.isTransient) :
    (ofCommit fault : AttemptEnd α) = .retryable fault := by
  cases fault <;> first | rfl | cases h

theorem ofStop_transient (h : fault.isTransient) :
    (ofStop (.failed (.store fault)) : AttemptEnd α) = .retryable fault := by
  rw [ofStop, Failure.transient?, if_pos h]

end AttemptEnd

namespace UnitOfWork

-- What a unit of work comes to, and what it leaves.
structure Settled (α : Type) where
  result : Except Stop α
  rows : Rows
  version : Key → Nat

-- Another attempt would come to the same.
def Settled.Lasts {α : Type} (v : Settled α) : Prop :=
  ∀ count fault, v.result ≠ .error (.failed (.retriesExhausted count fault))

variable {α β : Type} {config : TransactionConfig} {name operation : String}
  {requests : Except Fault RequestSet} {task : Resolved → Task α} {tx : TxId} {c c' : Context}
  {rows : Rows} {version : Key → Nat} {v : Settled α} {e : AttemptEnd α} {fault : Fault}
  {p : Program (AttemptEnd α × Unit)} {s s' : Store} {number left : Nat}

-- The attempt settles the unit, or it has used up a fault and is to be made again.
def Tries (p : Program (AttemptEnd α × Unit)) (s : Store) (rows : Rows) (version : Key → Nat)
    (v : Settled α) : Prop :=
  ∀ n e s', s.Stands rows version n → p.RunsAlone s (e, ()) s' →
    e.result? = some v.result ∧ s'.Stands v.rows v.version n ∨
      ∃ fault m, e = .retryable fault ∧ n = m + 1 ∧ s'.Stands rows version m

-- The rest of an attempt that leaves everything as it is.
def Abandons (p : Program (AttemptEnd α × Unit)) (e : AttemptEnd α) : Prop :=
  ∀ s rows version n e' s', s.Stands rows version n → p.RunsAlone s (e', ()) s' →
    e' = e ∧ s'.Stands rows version n

theorem Abandons.tries {r : Except Stop α} (h : Abandons p e) (he : e.result? = some r) :
    Tries p s rows version ⟨r, rows, version⟩ := by
  intro n e' s' hs hrun
  obtain ⟨rfl, hs'⟩ := h s rows version n e' s' hs hrun
  exact .inl ⟨he, hs'⟩

theorem Tries.stage {ε : Type} [FaultCarrier ε] {m : Stage ε β}
    {next : Except ε β × Context → Program (AttemptEnd α × Unit)} {r : Except ε β}
    (hdenotes : Stage.Denotes m rows c r c') (hreads : Stage.Reads m)
    (hnext : ∀ s, s.Underway tx → Tries (next (r, c'.under tx)) s rows version v)
    (hfault : ∀ fault c, fault.isTransient →
      Abandons (next (.error (FaultCarrier.ofFault fault), c)) (.retryable fault))
    (hs : s.Underway tx) : Tries (m (c.under tx) >>= next) s rows version v := by
  intro n e s' hstands hrun
  obtain ⟨x, s₁, hstage, hrest⟩ := hrun.of_bind
  obtain ⟨hrows₁, hversion₁⟩ := (hreads (c.under tx)).same hstage
  have hs₁ : s₁.Underway tx := (hreads (c.under tx)).underway hstage hs
  replace hrows₁ := hrows₁.trans hstands.rows_eq
  replace hversion₁ := hversion₁.trans hstands.version_eq
  obtain ⟨rfl, hfaults⟩ | ⟨fault, ⟨rest, hqueued, hdrop⟩, herror⟩ :=
    hdenotes tx s x s₁ hstands.rows_eq hstage
  · have hdue : s₁.Due n := hstands.due.congr fun o _ => congrFun hfaults o
    exact hnext s₁ hs₁ n e s' ⟨hrows₁, hversion₁, hs₁.fresh, hdue⟩ hrest
  · obtain ⟨htransient, m, rfl, hdue⟩ := hstands.due.drop (o := .find) nofun hqueued hdrop
    obtain ⟨r₁, c₁⟩ := x
    cases (herror : r₁ = _)
    obtain ⟨rfl, hs'⟩ := hfault fault c₁ htransient s₁ rows version m e s'
      ⟨hrows₁, hversion₁, hs₁.fresh, hdue⟩ hrest
    exact .inr ⟨fault, m, rfl, rfl, hs'⟩

-- A fault of the rollback makes no difference.
theorem rollback_stands {n : Nat} {x : Unit} (hs : s.Stands rows version n)
    (h : (rollback name c).RunsAlone s x s') : s'.Stands rows version n := by
  obtain ⟨⟨r, c'⟩, s₁, hcall, hrest⟩ := h.of_bind
  obtain ⟨r', s₂, hanswer, heq, rfl⟩ := hcall.of_bind
  cases heq
  have hs₂ : s₂.Stands rows version n := by
    rw [← show (s.rollback c.tx).2 = s₂ from congrArg Prod.snd (RunsAlone.call hanswer)]
    obtain ⟨-, heq⟩ | ⟨_, _, -, heq⟩ := s.guarded_cases .rollback id (.ok (), s.record (.rollback c.tx))
    · rw [Store.rollback, heq]
      exact ⟨hs.rows_eq, hs.version_eq, hs.fresh, hs.due.congr fun _ _ => rfl⟩
    · rw [Store.rollback, heq]
      exact ⟨hs.rows_eq, hs.version_eq, hs.fresh, hs.due.congr fun o ho => if_neg ho⟩
  cases r
  case ok =>
    obtain ⟨-, rfl⟩ := hrest
    exact hs₂
  case error =>
    obtain ⟨-, rfl⟩ := hrest.unique .log
    exact hs₂

theorem rollback_abandons : Abandons (do rollback name c; return (e, ())) e := by
  intro s rows version n e' s' hs hrun
  obtain ⟨_, s₁, hrollback, heq, rfl⟩ := hrun.of_bind
  cases heq
  exact ⟨rfl, rollback_stands hs hrollback⟩

-- A commit is refused for a fault, for a missing lock or not at all.
theorem exists_commit_tries (name : String) (a : α) (c : Context) (rows : Rows)
    (version : Key → Nat) : ∃ v : Settled α, v.Lasts ∧ ∀ tx s, s.Underway tx →
      Tries (conclude name (.ok a, c.under tx)) s rows version v := by
  cases hcovered : c.covered?
  case error fault =>
    obtain ⟨key, held, rfl⟩ := Context.covered?_eq_error hcovered
    refine ⟨⟨.error (.failed (.store (.lockUpgrade key held))), rows, version⟩, nofun, ?_⟩
    intro tx s _ n e s' hs hrun
    obtain ⟨e₁, s₁, hcommit, heq, rfl⟩ := hrun.of_bind
    cases heq
    obtain ⟨⟨r, c'⟩, s₂, haction, hrest⟩ := hcommit.of_bind
    obtain ⟨fault, hfault, rfl, rfl, rfl⟩ | ⟨hok, -⟩ := Action.commit_alone haction
    · cases hfault.symm.trans hcovered
      obtain ⟨_, s₃, hrollback, rfl, rfl⟩ := RunsAlone.of_bind hrest
      exact .inl ⟨rfl, rollback_stands hs hrollback⟩
    · cases hok.symm.trans hcovered
  case ok =>
    let base : Store := c.changes.foldl Store.apply { Store.new with rows, version }
    refine ⟨⟨.ok a, base.rows, base.version⟩, nofun, ?_⟩
    intro tx s hunderway n e s' hs hrun
    obtain ⟨e₁, s₁, hcommit, heq, rfl⟩ := hrun.of_bind
    cases heq
    obtain ⟨⟨r, c'⟩, s₂, haction, hrest⟩ := hcommit.of_bind
    obtain ⟨fault, hfault, -⟩ | ⟨-, rfl, x, hx, rfl⟩ := Action.commit_alone haction
    · cases hfault.symm.trans hcovered
    obtain ⟨-, -, heq⟩ | ⟨key, -, hstale, -⟩ | ⟨fault, rest, hqueued, heq⟩ :=
      s.commit_cases tx c.changes
    · cases hx.symm.trans heq
      obtain ⟨rfl, rfl⟩ := hrest
      obtain ⟨hrows, hversion⟩ := Store.foldl_apply_congr c.changes
        (s := { Store.new with rows, version }) hs.rows_eq hs.version_eq
      refine .inl ⟨rfl, hrows, hversion, ?_, ?_⟩
      · intro tx' read hread
        simpa using hs.fresh tx' read (by simpa using hread)
      · exact hs.due.congr fun o _ => congrFun Store.foldl_apply_faults o
    · have hcurrent := Store.stale?_eq_none_iff.mpr fun key version => hunderway.current
      cases hstale.symm.trans hcurrent
    · cases hx.symm.trans heq
      obtain ⟨_, s₃, hrollback, rfl, rfl⟩ := RunsAlone.of_bind hrest
      obtain ⟨htransient, m, rfl, hdue⟩ := hs.due.drop (o := .commit) nofun hqueued rfl
      refine .inr ⟨fault, m, AttemptEnd.ofCommit_transient htransient, rfl, ?_⟩
      exact rollback_stands (s := s.dropFault .commit)
        ⟨hs.rows_eq, hs.version_eq, hs.fresh, hdue⟩ hrollback

theorem exists_result_ofLocking (h : ¬fault.isTransient) : ∃ r,
    (.ofLocking fault : AttemptEnd α).result? = some r ∧
      ∀ count last, r ≠ .error (.failed (.retriesExhausted count last)) := by
  rw [AttemptEnd.ofLocking, if_neg h]
  split
  case isTrue => exact ⟨_, rfl, by simp⟩
  case isFalse => exact ⟨_, rfl, by simp⟩

theorem result_ofStop {stop : Stop} (h : stop.Lasts) :
    (.ofStop stop : AttemptEnd α).result? = some (.error stop) := by
  cases stop
  case overflow => rfl
  case failed failure =>
    cases failure
    case store fault =>
      rw [AttemptEnd.ofStop, Failure.transient?, if_neg h]
      rfl
    all_goals rfl

-- What an attempt does once its locks are taken or refused.
def afterLocks (name : String) (task : Resolved → Task α) :
    Except Fault Resolved × Context → Program (AttemptEnd α × Unit)
  | (.error fault, c) => do
    rollback name c
    return (.ofLocking fault, ())
  | (.ok resolved, c) => task resolved c >>= conclude name

theorem transact_eq_afterLocks : transact config name (ofTask operation requests task) () tx = (do
    Program.log .debug s!"{name} tx started"
    lockRows config name requests (.new tx) >>= afterLocks name task) := by
  rw [transact_ofTask]
  refine congrArg (Program.bind _) (funext fun _ => congrArg (Program.bind _) (funext fun (r, c) => ?_))
  cases r <;> rfl

theorem exists_task_tries {m : Task α} (hm : Stage.Straight m) (name : String) (c : Context)
    (rows : Rows) (version : Key → Nat) : ∃ v : Settled α, v.Lasts ∧ ∀ tx s, s.Underway tx →
      Tries (m (c.under tx) >>= conclude name) s rows version v := by
  have hfault : ∀ fault c, fault.isTransient →
      Abandons (conclude name (.error (FaultCarrier.ofFault fault), c))
        (.retryable fault : AttemptEnd α) := by
    intro fault c htransient
    rw [← AttemptEnd.ofStop_transient htransient]
    exact rollback_abandons
  obtain ⟨r, c', hdenotes, hlasts⟩ := hm.exists_denotes rows c
  cases r
  case ok a =>
    obtain ⟨v, hv, htries⟩ := exists_commit_tries name a c' rows version
    exact ⟨v, hv, fun tx s => Tries.stage hdenotes hm.reads (htries tx) hfault⟩
  case error stop =>
    have hstop : stop.Lasts := hlasts stop rfl
    refine ⟨⟨.error stop, rows, version⟩, ?_, fun tx s =>
      Tries.stage hdenotes hm.reads (fun s _ => Abandons.tries ?_ (result_ofStop hstop)) hfault⟩
    · rintro count fault ⟨⟩
      exact hstop
    · cases stop
      case overflow =>
        intro s rows version n e s' hs hrun
        obtain ⟨heq, rfl⟩ := hrun
        cases heq
        exact ⟨rfl, hs⟩
      case failed => exact rollback_abandons

section

variable (hstraight : ∀ resolved, Stage.Straight (task resolved))
  (hrequests : ∀ fault, requests = .error fault → ¬fault.isTransient)

include hstraight hrequests

theorem exists_transact_tries (config : TransactionConfig) (name operation : String) (rows : Rows)
    (version : Key → Nat) : ∃ v : Settled α, v.Lasts ∧ ∀ tx s, s.Underway tx →
      Tries (transact config name (ofTask operation requests task) () tx) s rows version v := by
  have hfault : ∀ fault c, fault.isTransient →
      Abandons (afterLocks name task (.error fault, c)) (.retryable fault) := by
    intro fault c htransient
    rw [← AttemptEnd.ofLocking_transient htransient]
    exact rollback_abandons
  have hlock : Stage.Straight (lockRows config name requests) := lockRows_straight hrequests
  suffices h : ∃ v : Settled α, v.Lasts ∧ ∀ tx s, s.Underway tx →
      Tries (lockRows config name requests ((Context.new 0).under tx) >>= afterLocks name task) s rows
        version v by
    obtain ⟨v, hv, htries⟩ := h
    refine ⟨v, hv, fun tx s hs n e s' hstands hrun => ?_⟩
    rw [transact_eq_afterLocks] at hrun
    exact htries tx _ hs n e s' hstands (RunsAlone.after_log hrun)
  obtain ⟨r, c, hdenotes, hlasts⟩ := hlock.exists_denotes rows (.new 0)
  cases r
  case ok resolved =>
    obtain ⟨v, hv, htries⟩ := exists_task_tries (hstraight resolved) name c rows version
    exact ⟨v, hv, fun tx s => Tries.stage hdenotes hlock.reads (htries tx) hfault⟩
  case error fault =>
    obtain ⟨r, hr, hlast⟩ : ∃ r, (.ofLocking fault : AttemptEnd α).result? = some r ∧
        ∀ count last, r ≠ .error (.failed (.retriesExhausted count last)) :=
      exists_result_ofLocking (hlasts fault rfl)
    exact ⟨⟨r, rows, version⟩, hlast, fun tx s =>
      Tries.stage hdenotes hlock.reads (fun s _ => rollback_abandons.tries hr) hfault⟩

-- An attempt that meets no fault always comes to the same. One that meets a fault leaves rows and
-- versions as they were, and uses the fault up.
theorem exists_attempt_tries (config : TransactionConfig) (name operation : String) (rows : Rows)
    (version : Key → Nat) : ∃ v : Settled α, v.Lasts ∧ ∀ s,
      Tries (attempt config name (ofTask operation requests task) ()) s rows version v := by
  obtain ⟨v, hv, htries⟩ :=
    exists_transact_tries hstraight hrequests config name operation rows version
  refine ⟨v, hv, fun s n e s' hs hrun => ?_⟩
  rw [attempt_ofTask] at hrun
  obtain ⟨result, s₁, hbegin, hrest⟩ := hrun.of_bind
  have hanswer : s.begin = (result, s₁) := RunsAlone.call hbegin
  obtain ⟨-, heq⟩ | ⟨fault, rest, hqueued, heq⟩ := s.guarded_cases .begin id
    (.ok (s.begun + 1), { s.record (.begin (s.begun + 1)) with begun := s.begun + 1 })
  · cases hanswer.symm.trans heq
    refine htries (s.begun + 1) _ ?_ n e s' ?_ hrest
    · refine ⟨fun tx read hread => (hs.fresh tx read hread).trans (Nat.le_succ _), le_rfl, ?_⟩
      exact fun {read} hread => absurd (hs.fresh _ read hread) (Nat.not_succ_le_self _)
    · refine ⟨hs.rows_eq, hs.version_eq, ?_, hs.due.congr fun _ _ => rfl⟩
      exact fun tx read hread => (hs.fresh tx read hread).trans (Nat.le_succ _)
  · cases hanswer.symm.trans heq
    obtain ⟨htransient, m, rfl, hdue⟩ := hs.due.drop (o := .begin) nofun hqueued rfl
    obtain ⟨heq, rfl⟩ := hrest
    cases heq
    exact .inr ⟨fault, m, AttemptEnd.ofLocking_transient htransient, rfl,
      hs.rows_eq, hs.version_eq, hs.fresh, hdue⟩

end

theorem report_leaves {outcome : Option AttemptOutcome} {x : Unit}
    (h : (report operation number outcome).RunsAlone s x s') : s' = s := by
  have hsettles : (report operation number outcome).Settles fun _ => True := report_settles
  obtain ⟨_, hreport, -⟩ := hsettles.runsAlone s
  exact (h.unique hreport).2

variable {again : Nat → Program (Except Stop α × Unit)} {r r' : Except Stop α}

theorem proceed_settles_alone (he : e.result? = some r)
    (h : (proceed name operation number left again e).RunsAlone s (r', ()) s') : r' = r ∧ s' = s := by
  obtain ⟨_, s₁, hreport, hrest⟩ := h.of_bind
  obtain rfl := report_leaves hreport
  cases e
  case retryable => cases he
  case overflow =>
    cases he
    obtain ⟨heq, rfl⟩ := hrest
    cases heq
    exact ⟨rfl, rfl⟩
  all_goals
    cases he
    obtain ⟨heq, rfl⟩ := RunsAlone.after_log hrest
    cases heq
    exact ⟨rfl, rfl⟩

theorem proceed_again_alone
    (h : (proceed name operation number (left + 1) again (.retryable fault)).RunsAlone s (r, ()) s') :
    (again left).RunsAlone s (r, ()) s' := by
  obtain ⟨_, s₁, hreport, hrest⟩ := h.of_bind
  obtain rfl := report_leaves hreport
  exact RunsAlone.after_log hrest

theorem attempts_settle
    (htries : ∀ s, Tries (attempt config name (ofTask operation requests task) ()) s rows version v)
    (hs : s.Stands rows version left)
    (h : (attempts config name (ofTask operation requests task) number left ()).RunsAlone s (r, ()) s') :
    r = v.result ∧ s'.rows = v.rows ∧ s'.version = v.version := by
  induction left generalizing number s
  all_goals
    rw [attempts_ofTask] at h
    obtain ⟨⟨e, _⟩, s₁, hattempt, hrest⟩ := h.of_bind
    obtain ⟨hresult, hs'⟩ | ⟨fault, m, rfl, hleft, hs'⟩ := htries s _ e s₁ hs hattempt
  case zero.inl =>
    obtain ⟨rfl, rfl⟩ := proceed_settles_alone hresult hrest
    exact ⟨rfl, hs'.rows_eq, hs'.version_eq⟩
  case succ.inl =>
    obtain ⟨rfl, rfl⟩ := proceed_settles_alone hresult hrest
    exact ⟨rfl, hs'.rows_eq, hs'.version_eq⟩
  case zero.inr => cases hleft
  case succ.inr ih _ =>
    cases hleft
    exact ih hs' (proceed_again_alone hrest)

-- However many faults are due, as long as there are attempts left for them.
theorem execute_settles (hstraight : ∀ resolved, Stage.Straight (task resolved))
    (hrequests : ∀ fault, requests = .error fault → ¬fault.isTransient) (config : TransactionConfig)
    (name : String) (rows : Rows) (version : Key → Nat) : ∃ v : Settled α, v.Lasts ∧
      ∀ s : Store, s.Stands rows version (config.attempts - 1) →
        ∃ s', ((ofTask name requests task).execute config ()).RunsAlone s (v.result, ()) s' ∧
          s'.rows = v.rows ∧ s'.version = v.version := by
  obtain ⟨v, hv, htries⟩ := exists_attempt_tries hstraight hrequests config (config.correlation name)
    name rows version
  refine ⟨v, hv, fun s hs => ?_⟩
  have hplain : (attempts config (config.correlation name) (ofTask name requests task) 1
      (config.attempts - 1) ()).Only Request.Plain :=
    attempts_plain fun resolved => (hstraight resolved).reads
  obtain ⟨⟨r, _⟩, s', hrun⟩ := exists_runsAlone hplain s
  obtain ⟨rfl, hrows, hversion⟩ := attempts_settle htries hs hrun
  rw [execute_ofTask]
  exact ⟨s', hrun.claimedBy, hrows, hversion⟩

end UnitOfWork

namespace Session.NamespaceOperation

theorem exists_settled (op : NamespaceOperation) (config : TransactionConfig) (rows : Rows)
    (version : Key → Nat) : ∃ v : UnitOfWork.Settled Value, v.Lasts ∧
      ∀ w : World, w.store.Stands rows version (config.attempts - 1) →
        ∃ w', (op.execute config).run w = some (v.result, w') ∧ w'.store.rows = v.rows ∧
          w'.store.version = v.version := by
  obtain ⟨α, name, requests, task, value, hexecute, hstraight⟩ := exists_task op config
  obtain ⟨v, hlasts, hsettles⟩ := UnitOfWork.execute_settles hstraight
    (fun _ => RequestSet.ofRequests_fails) config name rows version
  refine ⟨⟨v.result.map value, v.rows, v.version⟩, fun count fault hresult => ?_, fun w hw => ?_⟩
  · refine hlasts count fault ?_
    cases hr : v.result
    case ok => cases (congrArg (Except.map value) hr).symm.trans hresult
    case error stop =>
      cases (congrArg (Except.map value) hr).symm.trans hresult
      rfl
  · obtain ⟨s', hexecutes, hrows, hversion⟩ := hsettles w.store hw
    have hgive : (op.execute config).RunsAlone w.store (v.result.map value) s' := by
      rw [hexecute, give]
      exact hexecutes.bind .done
    obtain ⟨w', hw', rfl⟩ := hgive.run
    exact ⟨w', hw', hrows, hversion⟩

-- Faults that pass make no difference, as long as there are fewer of them than attempts; those of
-- rollbacks never do.
theorem execute_transparent (op : NamespaceOperation) (config : TransactionConfig) (w : World)
    (hfresh : w.store.Fresh) (faults : Operation → List Fault)
    (hpass : ∀ o, o ≠ .rollback → ∀ fault ∈ faults o, fault.isTransient)
    (hfew : (faults .begin).length + (faults .find).length + (faults .commit).length <
      config.retryCount.toNat) :
    ∃ r v v', (op.execute config).run { w with store := w.store.withFaults fun _ => [] } =
        some (r, v) ∧
      (op.execute config).run { w with store := w.store.withFaults faults } = some (r, v') ∧
      v'.store.rows = v.store.rows ∧ v'.store.version = v.store.version ∧
      ∀ count fault, r ≠ .error (.failed (.retriesExhausted count fault)) := by
  obtain ⟨v, hlasts, hsettles⟩ := exists_settled op config w.store.rows w.store.version
  obtain ⟨w₁, hquiet, hrows₁, hversion₁⟩ := hsettles
    { w with store := w.store.withFaults fun _ => [] } ⟨rfl, rfl, hfresh, ⟨nofun, Nat.zero_le _⟩⟩
  obtain ⟨w₂, hfaulty, hrows₂, hversion₂⟩ := hsettles
    { w with store := w.store.withFaults faults } ⟨rfl, rfl, hfresh, .withFaults hpass hfew⟩
  exact ⟨v.result, w₁, w₂, hquiet, hfaulty, hrows₂.trans hrows₁.symm,
    hversion₂.trans hversion₁.symm, hlasts⟩

-- A fault at each step of an attempt, and one of a rollback that does not pass.
def oneOfEach : Operation → List Fault
  | .begin => [.unavailable "store"]
  | .find => [.deadlock "rows"]
  | .commit => [.conflict "rows"]
  | .rollback => [.lockFailed "rows"]

theorem execute_transparent_makeDirectory : Store.new.Fresh ∧
    (∀ o, o ≠ .rollback → ∀ fault ∈ oneOfEach o, fault.isTransient) ∧
    ∃ r v v', ((makeDirectory "/a").execute {}).run { store := Store.new.withFaults fun _ => [] } =
        some (r, v) ∧
      ((makeDirectory "/a").execute {}).run { store := Store.new.withFaults oneOfEach } =
        some (r, v') ∧
      v'.store.rows = v.store.rows ∧ v'.store.version = v.store.version ∧ r.isOk := by
  have hpass : ∀ o, o ≠ .rollback → ∀ fault ∈ oneOfEach o, fault.isTransient := by
    intro o ho
    cases o
    case rollback => exact absurd rfl ho
    all_goals exact List.forall_mem_singleton.mpr rfl
  obtain ⟨r, v, v', hquiet, hfaulty, hrows, hversion, -⟩ := execute_transparent (makeDirectory "/a") {}
    { store := .new } .new oneOfEach hpass (by decide)
  have hrun : (((makeDirectory "/a").execute {}).run { store := Store.new.withFaults oneOfEach }).any
      (·.1.isOk) := by
    decide +kernel
  rw [hfaulty] at hrun
  exact ⟨.new, hpass, r, v, v', hquiet, hfaulty, hrows, hversion, hrun⟩

-- Wherever operations at once have left a new store, an operation that goes on there alone comes to
-- the same, whatever faults it meets.
theorem transparent_after_run {ι : Type} [DecidableEq ι] (op : ι → NamespaceOperation)
    (config : ι → TransactionConfig) (schedule : List ι) (next : NamespaceOperation)
    (settings : TransactionConfig) :
    let w := ((crew op config).run schedule).world
    ∃ v : UnitOfWork.Settled Value, v.Lasts ∧ ∀ faults : Operation → List Fault,
      (∀ o, o ≠ .rollback → ∀ fault ∈ faults o, fault.isTransient) →
      (faults .begin).length + (faults .find).length + (faults .commit).length <
        settings.retryCount.toNat →
      ∃ w', (next.execute settings).run { w with store := w.store.withFaults faults } =
          some (v.result, w') ∧ w'.store.rows = v.rows ∧ w'.store.version = v.version := by
  intro w
  have hfresh : w.store.Fresh := by
    have h : ((crew op config).after schedule schedule.length).world.store.Fresh :=
      crewIn_fresh Store.Tidy.new.coherent .new schedule.length
    rwa [Crew.after_length] at h
  obtain ⟨v, hlasts, hsettles⟩ := exists_settled next settings w.store.rows w.store.version
  exact ⟨v, hlasts, fun faults hpass hfew =>
    hsettles _ ⟨rfl, rfl, hfresh, .withFaults hpass hfew⟩⟩

end Session.NamespaceOperation

end NamespaceService
