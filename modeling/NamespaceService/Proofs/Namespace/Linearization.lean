import NamespaceService.Proofs.Concurrency.Order
import NamespaceService.Proofs.Namespace.Modes
import NamespaceService.Proofs.Namespace.Soundness

namespace NamespaceService

open Namespace

-- A value, or an error of the work itself.
def IsAnswer {α : Type} (r : Except Stop α) : Prop :=
  (∃ a, r = .ok a) ∨ ∃ error, r = .error (.failed (.operation error))

namespace Timeline

variable {α : Type} {σ : Timeline} {outcome : Rows → Except Stop (Effect α)} {r : Except Stop α}
  {τ : Nat}

-- The result is right for the rows at the moment. Either these rows do not change by it, or they do
-- so in the program's own step.
structure Shows (σ : Timeline) (outcome : Rows → Except Stop (Effect α)) (r : Except Stop α)
    (τ : Nat) : Prop where
  amid : σ.Amid τ
  result : (outcome (σ.rows τ)).map Effect.result = r
  rows : UnitOfWork.rowsAfter (σ.rows τ) (outcome (σ.rows τ)) = σ.rows τ ∨
    σ.turn τ ≠ .other ∧
      σ.rows (τ + 1) = UnitOfWork.rowsAfter (σ.rows τ) (outcome (σ.rows τ))

theorem Shows.map {β : Type} (h : σ.Shows outcome r τ) (value : α → β) :
    σ.Shows (fun rows => (outcome rows).map fun effect => ⟨value effect.result, effect.changes⟩)
      (r.map value) τ where
  amid := h.amid
  result := by
    rw [← h.result]
    cases outcome (σ.rows τ) <;> rfl
  rows := by
    have hrows := h.rows
    cases houtcome : outcome (σ.rows τ)
    all_goals
      rw [houtcome] at hrows
      exact hrows

end Timeline

namespace UnitOfWork

open Program

variable {α : Type} {σ : Timeline} {config : TransactionConfig} {name : String}
  {requests : Except Fault RequestSet} {task : Resolved → Task α} {t u n : Nat} {tx : TxId}
  {changes : List Change} {outcome : Rows → Except Stop (Effect α)} {r : Except Stop α}

namespace Attempted

variable (o : Attempted σ config name requests task t)

include o

theorem lockedFrom_le : o.lockedFrom ≤ o.doneAt :=
  o.locks.le.trans o.works.le

theorem le_doneAt : t ≤ o.doneAt :=
  o.le.trans (o.lt.le.trans o.lockedFrom_le)

-- The attempt has begun before its search, and ends with a call after it.
theorem amid {τ : Nat} {call : Store.Call} (h₀ : o.lockedFrom ≤ τ) (hn : τ ≤ n)
    (hturn : σ.turn n = .call call) : σ.Amid τ :=
  ⟨o.start, n, o.lt.trans_le h₀, hn, ⟨_, o.begun.1⟩, _, hturn⟩

end Attempted

variable (hsound : ∀ o : Attempted σ config (config.correlation name) requests task t,
    ∃ plan, o.Sound outcome plan)

include hsound

-- A commit of something is made by what is there at its moment.
theorem written {a : α} (o : Attempted σ config (config.correlation name) requests task t)
    (hresult : o.result = .ok a) (hn : o.doneAt ≤ n)
    (hok : σ.Accepts n o.finish.tx o.finish.changes) (hne : o.finish.changes ≠ []) :
    σ.Amid n ∧ outcome (σ.rows n) = .ok ⟨a, o.finish.changes⟩ := by
  have ⟨plan, hs⟩ := hsound o
  obtain ⟨⟨result, changes⟩, rfl, rfl, hchanges⟩ := hs.planned.effect hresult
  simp only at hchanges
  rw [hchanges] at hok hne ⊢
  exact ⟨o.amid (o.lockedFrom_le.trans hn) le_rfl hok.1, hs.wrote rfl hne hn hok⟩

-- A unit that answers does so by what is there at one moment.
theorem execute_shows (h : ((ofTask name requests task).execute config ()).Runs σ t (r, ()) u)
    (hr : IsAnswer r) : ∃ τ, σ.Shows outcome r τ := by
  obtain ⟨a, rfl⟩ | ⟨error, rfl⟩ := hr
  case inl =>
    obtain ⟨o, n, hresult, hdone, -, hok⟩ := execute_runs_ok h
    by_cases hnone : o.finish.changes = []
    case neg =>
      obtain ⟨hamid, houtcome⟩ := written hsound o hresult hdone hok hnone
      refine ⟨n, hamid, by rw [houtcome]; rfl, .inr ⟨hok.turn_ne, ?_⟩⟩
      rw [houtcome, Timeline.Accepts.rows hok]
      rfl
    case pos =>
      have ⟨plan, hs⟩ := hsound o
      obtain ⟨⟨result, changes⟩, rfl, rfl, hchanges⟩ := hs.planned.effect hresult
      obtain rfl : changes = [] := hchanges.symm.trans hnone
      have ⟨τ, h₀, hτ, houtcome⟩ := hs.read rfl hdone (hnone ▸ hok)
      refine ⟨τ, o.amid h₀ (hτ.trans (o.works.le.trans hdone)) hok.1, by rw [houtcome]; rfl, .inl ?_⟩
      rw [houtcome]
      rfl
  case inr =>
    obtain ⟨o, n, hresult, hdone, -, hturn⟩ := execute_runs_error h
    have ⟨plan, hs⟩ := hsound o
    have hplan : plan = refuse error := by
      rw [hs.planned.result] at hresult
      cases plan <;> cases hresult
      rfl
    have ⟨τ, h₀, hτ, houtcome⟩ := hs.refused hplan
    rw [hplan] at houtcome
    refine ⟨τ, o.amid h₀ (hτ.trans (o.works.le.trans hdone)) hturn, by rw [houtcome]; rfl, .inl ?_⟩
    rw [houtcome]
    rfl

-- A unit that commits something does so by what is there at the moment of the commit.
theorem execute_wrote (hreads : ∀ resolved, Stage.Reads (task resolved))
    (h : ((ofTask name requests task).execute config ()).Reaches σ (.commit tx changes) n t)
    (hok : σ.Accepts n tx changes) (hne : changes ≠ []) :
    σ.Amid n ∧ ∃ a, outcome (σ.rows n) = .ok ⟨a, changes⟩ ∧
      ∀ r u, ((ofTask name requests task).execute config ()).Runs σ t (r, ()) u → r = .ok a := by
  obtain ⟨o, ⟨a, hresult⟩, hdone, -, rfl, hleft⟩ := execute_reaches hreads h
  obtain ⟨hamid, houtcome⟩ := written hsound o hresult hdone (hleft ▸ hok) (hleft ▸ hne)
  rw [← hleft] at houtcome
  refine ⟨hamid, a, houtcome, fun r u hruns => ?_⟩
  obtain ⟨b, hb⟩ := (execute_commitsLast hreads).runs h hok hruns
  obtain rfl : r = .ok b := hb
  -- The value is that of the attempt whose commit was accepted, and there is only one.
  obtain ⟨o', n', hresult', hdone', hlt, hok'⟩ := execute_runs_ok hruns
  have hle : t ≤ n' := o'.le_doneAt.trans hdone'
  have hreaches := hruns.reaches hok'.1 hle hlt
  obtain rfl : n' = n := Nat.le_antisymm ((execute_commitsLast hreads).reaches_le h hok hreaches)
    ((execute_commitsLast hreads).reaches_le hreaches hok' h)
  have hsame : changes = o'.finish.changes :=
    (Store.Call.commit.inj (Turn.call.inj (hok.1.symm.trans hok'.1))).2
  have houtcome' := (written hsound o' hresult' hdone' hok' (hsame ▸ hne)).2
  cases houtcome.symm.trans houtcome'
  rfl

end UnitOfWork

namespace Session.NamespaceOperation

open Program UnitOfWork

section

variable {σ : Timeline} {config : TransactionConfig} {op : NamespaceOperation} {tx tx' : TxId}
  {changes changes' : List Change} {t u m n : Nat} {x : Except Stop Value}

theorem give_runs {α : Type} {unit : UnitOfWork Unit α} {value : α → Value}
    (h : (give config unit value).Runs σ t x u) :
    ∃ r v, (unit.execute config ()).Runs σ t (r, ()) v ∧ x = r.map value := by
  obtain ⟨⟨r, _⟩, v, hr, rfl, -⟩ := runs_bind.mp h
  exact ⟨r, v, hr, rfl⟩

-- Once a commit is accepted, the operation ends with a value.
theorem execute_commitsLast : (op.execute config).CommitsLast fun x => ∃ v, x = .ok v := by
  obtain ⟨α, name, requests, task, value, hexecute, hstraight⟩ := exists_task op config
  have hreads := fun resolved => (hstraight resolved).reads
  rw [hexecute]
  refine (UnitOfWork.execute_commitsLast hreads).bind (fun _ => trivial) ?_
  rintro _ ⟨a, ha⟩
  exact ⟨value a, congrArg (Except.map value) ha⟩

-- Of an operation's commits, at most one is accepted.
theorem commit_unique (h : (op.execute config).Reaches σ (.commit tx changes) m t)
    (hok : σ.Accepts m tx changes) (h' : (op.execute config).Reaches σ (.commit tx' changes') n t)
    (hok' : σ.Accepts n tx' changes') : m = n :=
  Nat.le_antisymm (execute_commitsLast.reaches_le h' hok' h)
    (execute_commitsLast.reaches_le h hok h')

variable (hlock : config.rowLevelLock) (hσ : σ.Tended) (hmoves : ¬op.Moves)

include hlock hσ hmoves

-- The operation as a unit of work whose attempts are sound.
theorem exists_sound (t : Nat) : ∃ (α : Type) (name : String) (requests : Except Fault RequestSet)
    (task : Resolved → Task α) (outcome : Rows → Except Stop (Effect α)) (value : α → Value),
    op.execute config = give config (.ofTask name requests task) value ∧
      (∀ resolved, Stage.Reads (task resolved)) ∧
      (∀ o : Attempted σ config (config.correlation name) requests task t,
        ∃ plan, o.Sound outcome plan) ∧
      ∀ rows, op.outcome false rows = (outcome rows).map (effectOf value) := by
  cases op
  case makeDirectory =>
    exact ⟨_, _, _, _, _, _, rfl, fun _ => makeDirectory_reads, MakeDirectory.sound hlock hσ,
      fun _ => rfl⟩
  case createFile =>
    exact ⟨_, _, _, _, _, _, rfl, fun _ => createFile_reads, CreateFile.sound hlock hσ, fun _ => rfl⟩
  case delete =>
    exact ⟨_, _, _, _, _, _, rfl, fun _ => delete_reads, Delete.sound hlock hσ, fun _ => rfl⟩
  case rename => exact absurd trivial hmoves
  case addBlock =>
    exact ⟨_, _, _, _, _, _, rfl, fun _ => addBlock_reads, AddBlock.sound hlock hσ, fun _ => rfl⟩
  case fileInfo =>
    exact ⟨_, _, _, _, _, _, rfl, fileInfo_reads, fileInfo_sound hlock hσ, fun _ => rfl⟩
  case listDirectory =>
    exact ⟨_, _, _, _, _, _, rfl, fun _ => listDirectory_reads, ListDirectory.sound hlock hσ,
      fun _ => rfl⟩

theorem run_shows (h : (op.execute config).Runs σ t x u) (hx : IsAnswer x) :
    ∃ τ, σ.Shows (fun rows => op.outcome false rows) x τ := by
  obtain ⟨α, name, requests, task, outcome, value, hexecute, -, hsound, houtcome⟩ :=
    exists_sound hlock hσ hmoves t
  rw [hexecute] at h
  obtain ⟨r, v, hr, rfl⟩ := give_runs h
  have hanswer : IsAnswer r := by
    obtain ⟨_, hx⟩ | ⟨_, hx⟩ := hx
    all_goals cases r <;> cases hx
    case inl => exact .inl ⟨_, rfl⟩
    case inr => exact .inr ⟨_, rfl⟩
  have ⟨τ, hτ⟩ := execute_shows hsound hr hanswer
  simp only [houtcome]
  exact ⟨τ, hτ.map value⟩

theorem commit_wrote (h : (op.execute config).Reaches σ (.commit tx changes) n t)
    (hok : σ.Accepts n tx changes) (hne : changes ≠ []) :
    σ.Amid n ∧ ∃ value, op.outcome false (σ.rows n) = .ok ⟨value, changes⟩ ∧
      ∀ x u, (op.execute config).Runs σ t x u → x = .ok value := by
  obtain ⟨α, name, requests, task, outcome, value, hexecute, hreads, hsound, houtcome⟩ :=
    exists_sound hlock hσ hmoves t
  rw [hexecute] at h ⊢
  obtain ⟨hamid, a, ha, hruns⟩ := execute_wrote hsound hreads (give_reaches h) hok hne
  refine ⟨hamid, value a, by rw [houtcome, ha]; rfl, fun x u hx => ?_⟩
  obtain ⟨r, v, hr, rfl⟩ := give_runs hx
  rw [hruns r v hr]
  rfl

end

end Session.NamespaceOperation

-- Rows change by commits that are accepted.
theorem Crew.Writes.accepts {ι α : Type} [DecidableEq ι] {crew : Crew ι α} {schedule : List ι} {i : ι}
    {n : Nat} {h : crew.Orderly} (hw : crew.Writes schedule i n) :
    ∃ tx changes, (Crew.timeline h schedule i).Accepts n tx changes ∧ changes ≠ [] := by
  obtain hrows | ⟨j, tx, changes, hok⟩ := h.rows_succ schedule n
  · exact absurd hrows hw.2
  · have hj := Crew.member_of_turn hok.turn_ne
    obtain rfl : i = j := Option.some.inj (hw.1.symm.trans hj)
    refine ⟨tx, changes, hok, ?_⟩
    rintro rfl
    exact hw.2 (Timeline.Accepts.rows hok)

namespace Session.NamespaceOperation

open Program UnitOfWork

variable {ι : Type} [DecidableEq ι] {op : ι → NamespaceOperation} {config : ι → TransactionConfig}
  {schedule order : List ι} {moment : ι → Nat} {i : ι} {m n : Nat} {x : Except Stop Value}

-- The members take effect in this order, each one at its moment: a member that writes in the step of
-- that number, and any other one just before it.
structure Linearizes (op : ι → NamespaceOperation) (config : ι → TransactionConfig)
    (schedule order : List ι) (moment : ι → Nat) : Prop where
  nodup : order.Nodup
  sorted : order.Pairwise fun i j => moment i ≤ moment j
  amid {i : ι} : i ∈ order → (crew op config).Amid schedule i (moment i)
  -- All that have answered are in the order, and of those that go on all that have committed.
  ended {i : ι} {x : Except Stop Value} :
    ((crew op config).run schedule).result? i = some x → (i ∈ order ↔ IsAnswer x)
  going {i : ι} : ((crew op config).run schedule).result? i = none →
    (i ∈ order ↔ ∃ n, (crew op config).Writes schedule i n)
  -- One after another in this order, they give the same answers and leave the same rows.
  replay : ∃ results w,
    (executeAll (order.map fun i => (op i, config i))).run { store := .new } = some (results, w) ∧
      order.Forall₂ (fun i x => ∀ y, ((crew op config).run schedule).result? i = some y → x = y)
        results ∧
      w.store.rows = ((crew op config).run schedule).world.store.rows

-- The run as the member sees it.
abbrev view (op : ι → NamespaceOperation) (config : ι → TransactionConfig) (schedule : List ι)
    (i : ι) : Timeline :=
  Crew.timeline (crewIn_orderly Store.Tidy.new.coherent : (crew op config).Orderly) schedule i

-- The member, if it has ended, has run along its timeline.
theorem runs_of_result (hx : ((crew op config).run schedule).result? i = some x) :
    ∃ u, ((op i).execute (config i)).Runs (view op config schedule i) 0 x u := by
  have hdone : ((crew op config).after schedule schedule.length).program i = .done x := by
    rw [Crew.after_length, Crew.program_of_result hx]
  obtain ⟨u, -, hruns⟩ : ∃ u ≤ schedule.length,
      ((op i).execute (config i)).Runs (view op config schedule i) 0 x u :=
    Crew.program_runs hdone (Nat.zero_le _)
  exact ⟨u, hruns⟩

theorem reaches_of_accepts {tx : TxId} {changes : List Change}
    (hok : (view op config schedule i).Accepts n tx changes) :
    ((op i).execute (config i)).Reaches (view op config schedule i) (.commit tx changes) n 0 :=
  Crew.program_reaches hok.1 (Nat.zero_le n)

-- A member writes once at most.
theorem writes_unique (hm : (crew op config).Writes schedule i m)
    (hn : (crew op config).Writes schedule i n) : m = n := by
  obtain ⟨tx, changes, hok, -⟩ := hm.accepts
  obtain ⟨tx', changes', hok', -⟩ := hn.accepts
  exact commit_unique (reaches_of_accepts hok) hok (reaches_of_accepts hok') hok'

-- What the member makes of the rows, if it has nobody beside it.
def act (op : ι → NamespaceOperation) (i : ι) (rows : Rows) : Rows :=
  rowsAfter rows ((op i).outcome false rows)

-- The member does at the moment what is to be done then, and nothing at any other one.
structure Taken (op : ι → NamespaceOperation) (config : ι → TransactionConfig) (schedule : List ι)
    (i : ι) (m : Nat) : Prop where
  amid : (crew op config).Amid schedule i m
  result {x : Except Stop Value} : ((crew op config).run schedule).result? i = some x → IsAnswer x ∧
    ((op i).outcome false ((crew op config).rowsAt schedule m)).map Effect.result = x
  rows : (crew op config).Writes schedule i m ∧ act op i ((crew op config).rowsAt schedule m) =
      (crew op config).rowsAt schedule (m + 1) ∨
    (∀ n, ¬(crew op config).Writes schedule i n) ∧
      act op i ((crew op config).rowsAt schedule m) = (crew op config).rowsAt schedule m

-- Those that have answered, or have committed.
def Takes (op : ι → NamespaceOperation) (config : ι → TransactionConfig) (schedule : List ι)
    (i : ι) : Prop :=
  (∃ x, ((crew op config).run schedule).result? i = some x ∧ IsAnswer x) ∨
    ∃ n, (crew op config).Writes schedule i n

section

variable (hlock : ∀ i, (config i).rowLevelLock) (hmoves : ∀ i, ¬(op i).Moves)

include hlock hmoves

theorem timeline_tended (i : ι) : (view op config schedule i).Tended where
  tidy n := crewIn_tidy hlock .new n
  edit n :=
    have ⟨changes, hedit, hrows⟩ :=
      crewIn_edit { store := .new } op schedule n hlock Store.Tidy.new.coherent
    ⟨changes, hedit.mono fun ⟨i, hi⟩ => hmoves i hi, hrows⟩

theorem exists_taken (hi : Takes op config schedule i) : ∃ m, Taken op config schedule i m := by
  by_cases hwrites : ∃ n, (crew op config).Writes schedule i n
  case pos =>
    obtain ⟨n, hn⟩ := hwrites
    obtain ⟨tx, changes, hok, hne⟩ := hn.accepts
    obtain ⟨hamid, value, houtcome, hruns⟩ := commit_wrote (hlock i) (timeline_tended hlock hmoves i)
      (hmoves i) (reaches_of_accepts hok) hok hne
    have houtcome : (op i).outcome false ((crew op config).rowsAt schedule n) = .ok ⟨value, changes⟩ :=
      houtcome
    refine ⟨n, Crew.amid_of_timeline hamid, fun {x} hx => ?_, .inl ⟨hn, ?_⟩⟩
    · have ⟨u, hu⟩ := runs_of_result hx
      obtain rfl := hruns x u hu
      exact ⟨.inl ⟨value, rfl⟩, by rw [houtcome]; rfl⟩
    · rw [act, houtcome]
      exact (Timeline.Accepts.rows hok).symm
  case neg =>
    have hstill (n : Nat) : ¬(crew op config).Writes schedule i n := fun hn => hwrites ⟨n, hn⟩
    obtain ⟨x, hx, hanswer⟩ := hi.resolve_right hwrites
    have ⟨u, hu⟩ := runs_of_result hx
    have ⟨τ, hτ⟩ := run_shows (hlock i) (timeline_tended hlock hmoves i) (hmoves i) hu hanswer
    refine ⟨τ, Crew.amid_of_timeline hτ.amid, fun {y} hy => ?_, .inr ⟨hstill, ?_⟩⟩
    · cases hx.symm.trans hy
      exact ⟨hanswer, hτ.result⟩
    · obtain hrows | ⟨hturn, hrows⟩ := hτ.rows
      · exact hrows
      · by_contra hne
        exact hstill τ ⟨Crew.member_of_turn hturn, fun heq => hne (hrows.symm.trans heq)⟩

omit hlock hmoves in
-- Who changes the rows in a step does so in the step of its moment.
theorem steps (htaken : ∀ i, Takes op config schedule i → Taken op config schedule i (moment i))
    (m : Nat) : Steps ((crew op config).rowsAt schedule) (act op) moment
      (Takes op config schedule) m := by
  by_cases hrows : (crew op config).rowsAt schedule (m + 1) = (crew op config).rowsAt schedule m
  case pos =>
    refine .inl ⟨hrows, fun i hi him => ?_⟩
    subst him
    obtain ⟨-, hact⟩ | ⟨-, hact⟩ := (htaken i hi).rows
    · exact hact.trans hrows
    · exact hact
  case neg =>
    obtain ⟨i, hw⟩ := Crew.exists_writes hrows
    have hi : Takes op config schedule i := .inr ⟨m, hw⟩
    obtain ⟨hw', hact⟩ | ⟨hstill, -⟩ := (htaken i hi).rows
    case inr => exact absurd hw (hstill m)
    have him : moment i = m := writes_unique hw' hw
    rw [him] at hact
    refine .inr ⟨i, hi, him, hact, fun j hj hjm hji => ?_⟩
    subst hjm
    obtain ⟨hw', -⟩ | ⟨-, hact⟩ := (htaken j hj).rows
    · exact absurd (hw'.member_unique hw) hji
    · exact hact

omit hmoves in
-- Alone at its moment, a member does what it did there among the others.
theorem replay {rows rows' : Rows} {w : World}
    (h : Passes ((crew op config).rowsAt schedule) (act op) moment rows order rows')
    (htaken : ∀ i ∈ order, Taken op config schedule i (moment i)) (hcalm : w.store.Calm)
    (hrows : w.store.rows = rows) : ∃ results w',
      (executeAll (order.map fun i => (op i, config i))).run w = some (results, w') ∧
        order.Forall₂ (fun i x => ∀ y, ((crew op config).run schedule).result? i = some y → x = y)
          results ∧ w'.store.rows = rows' := by
  induction h generalizing w
  case nil => exact ⟨[], w, rfl, .nil, hrows⟩
  case cons i rest rows rows' here _ ih =>
    subst hrows
    have htidy : ((crew op config).after schedule (moment i)).world.store.Tidy :=
      crewIn_tidy hlock .new (moment i)
    have hrows : w.store.rows.Hierarchy := here ▸ htidy.hierarchy
    have hids : w.store.rows.Numbered := here ▸ htidy.numbered
    obtain ⟨w₁, hrun, hcalm₁, hrows₁⟩ :=
      run_eq (op i) (config i) w hcalm hrows (outcome_eq_free hids _)
    obtain ⟨results, w', hrest, hresults, hrows'⟩ :=
      ih (fun j hj => htaken j (by simp [hj])) hcalm₁ hrows₁
    refine ⟨((op i).outcome false w.store.rows).map Effect.result :: results, w', ?_,
      .cons (fun y hy => ?_) hresults, hrows'⟩
    · rw [List.map_cons, executeAll_cons hrun, hrest]
      rfl
    · rw [here]
      exact ((htaken i (by simp)).result hy).2

-- Without renames, what is done at once could as well have been done one after another.
theorem linearizable : ∃ order moment, Linearizes op config schedule order moment := by
  choose! moment htaken using fun i (hi : Takes op config schedule i) =>
    exists_taken hlock hmoves hi
  have hmembers (i : ι) (hi : Takes op config schedule i) : i ∈ schedule :=
    have ⟨_, _, ha, _⟩ := (htaken i hi).amid
    ha.mem
  obtain ⟨order, hnodup, hsorted, hmem, hpasses⟩ :=
    exists_order (steps htaken) hmembers schedule.length
  have hmem (i : ι) : i ∈ order ↔ Takes op config schedule i := by
    refine (hmem i).trans ⟨And.left, fun hi => ⟨hi, ?_⟩⟩
    obtain ⟨_, _, -, hb, -, hle⟩ := (htaken i hi).amid
    exact hle.trans_lt hb.lt
  refine ⟨order, moment, hnodup, hsorted, fun hi => (htaken _ ((hmem _).mp hi)).amid,
    fun {i x} hx => (hmem i).trans ⟨fun hi => ((htaken i hi).result hx).1, fun h => .inl ⟨x, hx, h⟩⟩,
    fun {i} hx => (hmem i).trans ⟨fun hi => ?_, .inr⟩, ?_⟩
  · obtain ⟨_, hx', -⟩ | hw := hi
    · cases hx.symm.trans hx'
    · exact hw
  · obtain ⟨results, w, hrun, hresults, hrows⟩ := replay hlock hpasses
      (fun i hi => htaken i ((hmem i).mp hi)) Store.Calm.new rfl
    refine ⟨results, w, hrun, hresults, hrows.trans ?_⟩
    rw [Crew.rowsAt, Crew.after_length]

end

-- Two members want the same name, and both come to an end.
theorem linearizable_twoMembers :
    let op : Bool → NamespaceOperation := fun i =>
      if i then .makeDirectory "/a" else .createFile "/a" "c"
    let schedule := (List.replicate 40 [true, false]).flatten
    TransactionConfig.rowLevelLock {} ∧ (∀ i, ¬(op i).Moves) ∧
      (∀ i, (((crew op fun _ => {}).run schedule).result? i).isSome) ∧
      ∃ order moment, Linearizes op (fun _ => {}) schedule order moment := by
  intro op schedule
  have hmoves (i : Bool) : ¬(op i).Moves := by
    cases i
    all_goals exact id
  exact ⟨rfl, hmoves, by decide +kernel, linearizable (fun _ => rfl) hmoves⟩

end Session.NamespaceOperation

end NamespaceService
