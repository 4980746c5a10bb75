import NamespaceService.Proofs.Concurrency.Crew

namespace NamespaceService

namespace Request

-- The transaction that a lookup under a lock is made for.
def reader? : Request → Option TxId
  | .store call => call.reader?
  | _ => none

-- The newest transaction that is known of after an answer.
def known : (r : Request) → r.Response → TxId → TxId
  | .store .begin, .ok tx, newest => max newest tx
  | _, _, newest => newest

theorem le_known (r : Request) (x : r.Response) (newest : TxId) : newest ≤ r.known x newest := by
  rw [known.eq_def]
  split
  case h_1 => exact Nat.le_max_left ..
  case h_2 => exact le_rfl

theorem known_mono (r : Request) (x : r.Response) {newest newest' : TxId} (h : newest ≤ newest') :
    r.known x newest ≤ r.known x newest' := by
  rw [known.eq_def, known.eq_def]
  split
  case h_1 => exact Nat.max_le.mpr ⟨h.trans (Nat.le_max_left ..), Nat.le_max_right ..⟩
  case h_2 => exact h

end Request

namespace Program

variable {α β : Type} {P : Request → Prop} {Good : α → Prop} {p : Program α} {f : α → Program β}
  {newest newest' : TxId}

-- Lookups are made for transactions up to the newest one, or for those that are begun on the way.
def Knows : Program α → TxId → Prop
  | done _, _ => True
  | ask r next, newest =>
    (∀ tx, r.reader? = some tx → tx ≤ newest) ∧ ∀ x, (next x).Knows (r.known x newest)

namespace Knows

theorem mono (h : p.Knows newest) (hle : newest ≤ newest') : p.Knows newest' := by
  induction p generalizing newest newest'
  case done => trivial
  case ask r next ih =>
    refine ⟨fun tx htx => (h.1 tx htx).trans hle, fun x => ?_⟩
    exact ih x (h.2 x) (r.known_mono x hle)

theorem bind (hp : p.Knows newest) (hf : ∀ a, (f a).Knows newest) : (p >>= f).Knows newest := by
  induction p generalizing newest
  case done a => exact hf a
  case ask r next ih =>
    exact ⟨hp.1, fun x => ih x (hp.2 x) fun a => (hf a).mono (r.le_known x newest)⟩

theorem claimedBy {name : String} (h : p.Knows newest) : (p.claimedBy name).Knows newest := by
  induction p generalizing newest
  case done => trivial
  case ask r next ih => cases r <;> exact ⟨h.1, fun x => ih x (h.2 x)⟩

end Knows

-- What comes before is only about transactions that are known.
theorem Keeps.knows_bind (h : p.Keeps P Good)
    (hP : ∀ r, P r → ∀ tx, r.reader? = some tx → tx ≤ newest)
    (hf : ∀ a, Good a → (f a).Knows newest) : (p >>= f).Knows newest := by
  induction p generalizing newest
  case done a => exact hf a h
  case ask r next ih =>
    refine ⟨hP r h.1, fun x => ih x (h.2 x) (fun r' hr' tx htx => ?_) fun a ha => ?_⟩
    · exact (hP r' hr' tx htx).trans (r.le_known x newest)
    · exact (hf a ha).mono (r.le_known x newest)

theorem Keeps.knows (h : p.Keeps P Good)
    (hP : ∀ r, P r → ∀ tx, r.reader? = some tx → tx ≤ newest) : p.Knows newest := by
  rw [← bind_done p]
  exact h.knows_bind hP fun _ _ => trivial

end Program

namespace World

variable {s s' : Store} {r : Request} {x : r.Response}

-- An answer keeps transactions fresh, and knowledge of them sound.
theorem Serves.fresh (h : Serves s s' r x) (hs : s.Coherent) (hfresh : s.Fresh)
    (hr : ∀ tx, r.reader? = some tx → tx ≤ s.begun) :
    s'.Fresh ∧ s.begun ≤ s'.begun ∧ r.known x s.begun ≤ s'.begun := by
  cases r
  case store call =>
    have hs' : (s.answer call).2 = s' := congrArg Prod.snd h
    have hle := hs.begun_le_answer call
    rw [hs'] at hle
    refine ⟨hs' ▸ hfresh.answer hs hr, hle, ?_⟩
    cases call
    case begin =>
      rw [Serves, Store.answer, Store.begin_eq hs] at h
      cases h
      simp [Request.known]
    all_goals exact hle
  case log =>
    cases (h : s' = s)
    exact ⟨hfresh, le_rfl, le_rfl⟩
  case report =>
    cases (h : s' = s)
    exact ⟨hfresh, le_rfl, le_rfl⟩
  all_goals exact h.elim

end World

namespace Crew

variable {ι α : Type} [DecidableEq ι] {crew : Crew ι α} {schedule : List ι} {i : ι} {n : Nat}

structure Fresh (crew : Crew ι α) : Prop where
  store : crew.world.store.Fresh
  program (i : ι) : (crew.program i).Knows crew.world.store.begun

theorem Fresh.step (hfresh : crew.Fresh) (h : crew.Orderly) (i : ι) : (crew.step i).Fresh := by
  cases hp : crew.program i
  case done => rwa [step_done hp]
  case ask r next =>
    have ⟨x, w, hserves, heq⟩ := h.step_eq hp
    have hknows := hfresh.program i
    rw [hp] at hknows
    have ⟨hstore, hle, hknown⟩ := hserves.fresh h.coherent hfresh.store hknows.1
    rw [heq]
    refine ⟨hstore, fun j => ?_⟩
    change Program.Knows (if j = i then next x else crew.program j) _
    split
    case isTrue => exact (hknows.2 x).mono hknown
    case isFalse => exact (hfresh.program j).mono hle

theorem Fresh.after (hfresh : crew.Fresh) (h : crew.Orderly) (n : Nat) :
    (crew.after schedule n).Fresh := by
  induction n
  case zero => exact hfresh
  case succ n ih =>
    rw [after_succ]
    cases schedule[n]?
    case none => exact ih
    case some i => exact ih.step (h.after n) i

end Crew

namespace World

variable {s s' s'' : Store} {r : Request} {x y : r.Response}

theorem Serves.unique (hx : Serves s s' r x) (hy : Serves s s'' r y) : x = y ∧ s' = s'' := by
  cases r
  case store call => exact Prod.ext_iff.mp (hx.symm.trans hy)
  case log | report => exact ⟨rfl, hx.trans hy.symm⟩
  all_goals exact hx.elim

theorem Serves.plain (h : Serves s s' r x) : r.Plain := by
  cases r
  case store | log | report => trivial
  all_goals exact h.elim

theorem exists_serves (s : Store) (h : r.Plain) : ∃ x s', Serves s s' r x :=
  have ⟨x, w', _, hx⟩ := perform_plain { store := s } h
  ⟨x, w'.store, hx⟩

end World

namespace Program

variable {α β : Type} {p : Program α} {f : α → Program β} {s s' s'' : Store} {a : α} {b : β}

-- With nobody beside it, the program makes `s'` of the store `s`, and ends with `a`.
def RunsAlone : Program α → Store → α → Store → Prop
  | done b, s, a, s' => b = a ∧ s = s'
  | ask r next, s, a, s'' => ∃ x s', World.Serves s s' r x ∧ (next x).RunsAlone s' a s''

namespace RunsAlone

theorem done : (done a).RunsAlone s a s :=
  ⟨rfl, rfl⟩

theorem ask {r : Request} {next : r.Response → Program α} {x : r.Response}
    (hx : World.Serves s s' r x) (h : (next x).RunsAlone s' a s'') :
    (Program.ask r next).RunsAlone s a s'' :=
  ⟨x, s', hx, h⟩

theorem bind (hp : p.RunsAlone s a s') (hf : (f a).RunsAlone s' b s'') :
    (p >>= f).RunsAlone s b s'' := by
  induction p generalizing s
  case done c =>
    obtain ⟨rfl, rfl⟩ := hp
    exact hf
  case ask r next ih =>
    have ⟨x, s₁, hx, hnext⟩ := hp
    exact .ask hx (ih x hnext)

theorem of_bind (h : (p >>= f).RunsAlone s b s'') :
    ∃ a s', p.RunsAlone s a s' ∧ (f a).RunsAlone s' b s'' := by
  induction p generalizing s
  case done a => exact ⟨a, s, done, h⟩
  case ask r next ih =>
    have ⟨x, s₁, hx, hnext⟩ := h
    have ⟨a, s', hp, hf⟩ := ih x hnext
    exact ⟨a, s', ⟨x, s₁, hx, hp⟩, hf⟩

theorem log {level : Level} {message : String} : (Program.log level message).RunsAlone s () s :=
  ask (x := ()) rfl done

theorem claimedBy {name : String} (h : p.RunsAlone s a s') :
    (p.claimedBy name).RunsAlone s a s' := by
  induction p generalizing s
  case done => exact h
  case ask r next ih =>
    have ⟨x, s₁, hx, hnext⟩ := h
    cases r <;> exact ⟨x, s₁, hx, ih x hnext⟩

-- Whatever else there is in the world, the program runs.
theorem run {w : World} (h : p.RunsAlone w.store a s') :
    ∃ w', p.run w = some (a, w') ∧ w'.store = s' := by
  induction p generalizing w
  case done b =>
    obtain ⟨rfl, rfl⟩ := h
    exact ⟨w, rfl, rfl⟩
  case ask r next ih =>
    have ⟨x, s₁, hx, hnext⟩ := h
    have ⟨y, w₁, hw, hy⟩ := w.perform_plain hx.plain
    obtain ⟨rfl, rfl⟩ := hx.unique hy
    have ⟨w', hrun, hw'⟩ := ih x hnext
    refine ⟨w', ?_, hw'⟩
    rw [Program.run, hw]
    exact hrun

theorem unique {c : α} (ha : p.RunsAlone s a s') (hc : p.RunsAlone s c s'') : a = c ∧ s' = s'' := by
  induction p generalizing s
  case done b =>
    obtain ⟨rfl, rfl⟩ := ha
    exact hc
  case ask r next ih =>
    have ⟨x, s₁, hx, hnext⟩ := ha
    have ⟨y, s₂, hy, hnext'⟩ := hc
    obtain ⟨rfl, rfl⟩ := hx.unique hy
    exact ih x hnext hnext'

theorem after_log {level : Level} {message : String} {f : Unit → Program β}
    (h : (Program.log level message >>= f).RunsAlone s b s') : (f ()).RunsAlone s b s' := by
  obtain ⟨_, _, hlog, hrest⟩ := h.of_bind
  obtain ⟨-, rfl⟩ := hlog.unique .log
  exact hrest

end RunsAlone

-- A program that never waits runs to its end.
theorem exists_runsAlone (h : p.Only Request.Plain) (s : Store) : ∃ a s', p.RunsAlone s a s' := by
  induction p generalizing s
  case done a => exact ⟨a, s, .done⟩
  case ask r next ih =>
    have ⟨x, s₁, hx⟩ := World.exists_serves s h.1
    have ⟨a, s', hnext⟩ := ih x (h.2 x) s₁
    exact ⟨a, s', x, s₁, hx, hnext⟩

end Program

namespace Crew

variable {α : Type} {p : Program α} {w : World} {a : α} {s' : Store}

-- A crew of one.
def alone (w : World) (p : Program α) : Crew Unit α :=
  ⟨w, fun _ => p⟩

theorem run_alone (h : p.RunsAlone w.store a s') :
    ∃ w' schedule, w'.store = s' ∧ (alone w p).run schedule = alone w' (.done a) := by
  induction p generalizing w
  case done b =>
    obtain ⟨rfl, rfl⟩ := h
    exact ⟨w, [], rfl, rfl⟩
  case ask r next ih =>
    have ⟨x, s₁, hx, hnext⟩ := h
    have ⟨y, w₁, hw, hy⟩ := w.perform_plain hx.plain
    obtain ⟨rfl, rfl⟩ := hx.unique hy
    have ⟨w', schedule, hw', hcrew⟩ := ih x hnext
    have hstep : (alone w (.ask r next)).step () = alone w₁ (next x) := by
      simp only [step, alone, hw, if_true]
    refine ⟨w', () :: schedule, hw', ?_⟩
    rw [← hcrew, run, List.foldl_cons, hstep, run]

end Crew

-- A program that commits nothing runs while the rows stay as they are.
theorem Program.RunsAlone.steady {α : Type} {p : Program α} {s s' : Store} {a : α}
    (h : p.RunsAlone s a s') (hs : s.Coherent) (hplain : p.Only Request.Plain)
    (hcommit : p.Only fun r => ∀ tx changes, r ≠ .store (.commit tx changes)) :
    ∃ (σ : Timeline) (u : Nat), p.Runs σ 0 a u ∧ σ.Steady s.rows := by
  have hsolo : (Crew.alone { store := s } p).Orderly := ⟨fun _ => hplain, hs⟩
  have ⟨w', schedule, _, hcrew⟩ := Crew.run_alone (w := { store := s }) h
  have hdone : ((Crew.alone { store := s } p).after schedule schedule.length).program () =
      .done a := by
    rw [Crew.after_length, hcrew]
    rfl
  have ⟨u, _, hruns⟩ := Crew.program_runs (h := hsolo) hdone (Nat.zero_le _)
  refine ⟨Crew.timeline hsolo schedule (), u, hruns, fun n => ?_⟩
  induction n
  case zero => rfl
  case succ n ih =>
    obtain hrows | ⟨_, tx, changes, hok⟩ := hsolo.rows_succ schedule n
    · exact hrows.trans ih
    · exact absurd rfl (hcommit.reaches (Crew.program_reaches hok.1 (Nat.zero_le n)) tx changes)

end NamespaceService
