import NamespaceService.Proofs.Concurrency.Requests

namespace NamespaceService

structure Crew (ι α : Type) where
  world : World
  program : ι → Program α

namespace Crew

variable {ι α : Type} [DecidableEq ι] {crew : Crew ι α} {schedule : List ι} {i j : ι} {n m : Nat}

-- One turn. Who is done, or has to wait for a guard, lets it pass.
def step (crew : Crew ι α) (i : ι) : Crew ι α :=
  match crew.program i with
  | .done _ => crew
  | .ask r next =>
    match crew.world.perform r with
    | some (x, world) => { world, program := fun j => if j = i then next x else crew.program j }
    | none => crew

def run (crew : Crew ι α) (schedule : List ι) : Crew ι α :=
  schedule.foldl step crew

-- The crew after `n` turns.
def after (crew : Crew ι α) (schedule : List ι) (n : Nat) : Crew ι α :=
  crew.run (schedule.take n)

def result? (crew : Crew ι α) (i : ι) : Option α :=
  match crew.program i with
  | .done a => some a
  | .ask .. => none

-- What a turn of a member is to the store.
def turn (crew : Crew ι α) (i : ι) : Turn :=
  match crew.program i with
  | .done _ => .other
  | .ask (.store call) _ => .call call
  | .ask .. => .silent

omit [DecidableEq ι] in
theorem program_of_result {a : α} (h : crew.result? i = some a) : crew.program i = .done a := by
  rw [result?] at h
  split at h
  case h_1 hp => rw [hp, Option.some.inj h]
  case h_2 => cases h

@[simp]
theorem after_zero : crew.after schedule 0 = crew :=
  rfl

theorem after_length : crew.after schedule schedule.length = crew.run schedule := by
  rw [after, List.take_length]

theorem after_succ : crew.after schedule (n + 1) =
    match schedule[n]? with
    | some i => (crew.after schedule n).step i
    | none => crew.after schedule n := by
  cases h : schedule[n]?
  case none =>
    have hle := List.getElem?_eq_none_iff.mp h
    rw [after, after, List.take_of_length_le hle, List.take_of_length_le (by omega)]
  case some i =>
    rw [after, after, List.take_add_one, h, run, List.foldl_append]
    rfl

theorem step_program_of_ne (h : j ≠ i) : (crew.step i).program j = crew.program j := by
  rw [step]
  split
  case h_1 => rfl
  case h_2 =>
    split
    case h_1 => exact if_neg h
    case h_2 => rfl

-- Nobody has to wait, and the store is coherent.
structure Orderly (crew : Crew ι α) : Prop where
  plain (i : ι) : (crew.program i).Only Request.Plain
  coherent : crew.world.store.Coherent

end Crew

namespace World

-- What a request that never waits makes of the store.
def Serves (s s' : Store) : (r : Request) → r.Response → Prop
  | .store call, x => s.answer call = (x, s')
  | .log _, _ | .report _, _ => s' = s
  | _, _ => False

theorem perform_plain {r : Request} (w : World) (h : r.Plain) :
    ∃ x w', w.perform r = some (x, w') ∧ Serves w.store w'.store r x := by
  cases r
  case store call => exact ⟨_, _, rfl, rfl⟩
  case log => exact ⟨_, _, rfl, rfl⟩
  case report => exact ⟨_, _, rfl, rfl⟩
  all_goals exact h.elim

theorem Serves.next {s s' : Store} {r : Request} {x : r.Response} (h : Serves s s' r x) :
    s.Next s' := by
  cases r
  case store call => exact .inr ⟨call, (congrArg Prod.snd h).symm⟩
  case log => exact .inl h
  case report => exact .inl h
  all_goals exact h.elim

end World

namespace Crew

variable {ι α : Type} [DecidableEq ι] {crew : Crew ι α} {schedule : List ι} {i j : ι} {n m : Nat}

-- The turn of a member that is not done.
theorem Orderly.step_eq (h : crew.Orderly) {r : Request} {next : r.Response → Program α}
    (hp : crew.program i = .ask r next) : ∃ x w, World.Serves crew.world.store w.store r x ∧
      crew.step i = ⟨w, fun j => if j = i then next x else crew.program j⟩ := by
  have hplain := h.plain i
  rw [hp] at hplain
  have ⟨x, w, hw, hserves⟩ := crew.world.perform_plain hplain.1
  refine ⟨x, w, hserves, ?_⟩
  simp only [step, hp, hw]

theorem step_done {a : α} (hp : crew.program i = .done a) : crew.step i = crew := by
  simp only [step, hp]

theorem Orderly.next (h : crew.Orderly) (i : ι) :
    crew.world.store.Next (crew.step i).world.store ∧ (crew.step i).Orderly := by
  cases hp : crew.program i
  case done =>
    rw [step_done hp]
    exact ⟨.inl rfl, h⟩
  case ask r next =>
    have ⟨x, w, hserves, heq⟩ := h.step_eq hp
    have hplain := h.plain i
    rw [hp] at hplain
    rw [heq]
    refine ⟨hserves.next, fun j => ?_, ?_⟩
    · change Program.Only _ (if j = i then next x else crew.program j)
      split
      case isTrue => exact hplain.2 x
      case isFalse => exact h.plain j
    · obtain hs | ⟨call, hs⟩ := hserves.next
      · exact hs ▸ h.coherent
      · exact hs ▸ (h.coherent.answer call).2

theorem Orderly.after (h : crew.Orderly) (n : Nat) : (crew.after schedule n).Orderly := by
  induction n
  case zero => exact h
  case succ n ih =>
    rw [after_succ]
    cases schedule[n]?
    case none => exact ih
    case some i => exact (ih.next i).2

-- The run as one of the members sees it.
def timeline (h : crew.Orderly) (schedule : List ι) (i : ι) : Timeline where
  store n := (crew.after schedule n).world.store
  turn n := if schedule[n]? = some i then (crew.after schedule n).turn i else .other
  start := h.coherent
  next n := by
    rw [after_succ]
    cases schedule[n]?
    case none => exact .inl rfl
    case some j => exact ((h.after n).next j).1

variable {h : crew.Orderly}

theorem timeline_store : (timeline h schedule i).store n = (crew.after schedule n).world.store :=
  rfl

-- A member with nothing to ask for leaves all as it is.
theorem after_of_other (hj : schedule[n]? = some i)
    (hturn : (timeline h schedule i).turn n = .other) :
    crew.after schedule (n + 1) = crew.after schedule n := by
  rw [after_succ, hj]
  have hturn : (crew.after schedule n).turn i = .other := by
    simpa [timeline, hj] using hturn
  cases hp : (crew.after schedule n).program i
  case done => exact step_done hp
  case ask r next =>
    rw [turn, hp] at hturn
    cases r <;> cases hturn

-- While it is not its turn, the member's program stays as it is.
theorem program_of_other (hturn : (timeline h schedule i).turn n = .other) :
    (crew.after schedule (n + 1)).program i = (crew.after schedule n).program i := by
  cases hj : schedule[n]?
  case none => rw [after_succ, hj]
  case some j =>
    by_cases hij : i = j
    case neg =>
      rw [after_succ, hj]
      exact step_program_of_ne hij
    case pos => rw [after_of_other (hij ▸ hj) hturn]

-- In its own turn, it asks for something and goes on with the answer.
theorem program_of_turn (hturn : (timeline h schedule i).turn n ≠ .other) :
    ∃ r next x, (crew.after schedule n).program i = .ask r next ∧
      (timeline h schedule i).Answers n r x ∧
      (crew.after schedule (n + 1)).program i = next x := by
  have hj : schedule[n]? = some i := by
    by_contra hne
    exact hturn (if_neg hne)
  have heq : (timeline h schedule i).turn n = (crew.after schedule n).turn i := if_pos hj
  cases hp : (crew.after schedule n).program i
  case done a => exact absurd (heq.trans (by rw [turn, hp])) hturn
  case ask r next =>
    have ⟨x, w, hserves, hstep⟩ := (h.after n).step_eq hp
    have hafter : crew.after schedule (n + 1) = (crew.after schedule n).step i := by
      rw [after_succ, hj]
    refine ⟨r, next, x, rfl, ?_, by rw [hafter, hstep]; exact if_pos rfl⟩
    have hworld : (timeline h schedule i).store (n + 1) = w.store := by
      rw [timeline_store, hafter, hstep]
    cases r
    case store call => exact ⟨by rw [heq, turn, hp], hworld ▸ hserves⟩
    case log => exact ⟨by rw [heq, turn, hp], hworld.trans hserves⟩
    case report => exact ⟨by rw [heq, turn, hp], hworld.trans hserves⟩
    all_goals exact hserves.elim

theorem program_follows :
    Program.Follows (timeline h schedule i) (fun n => (crew.after schedule n).program i) n := by
  by_cases hturn : (timeline h schedule i).turn n = .other
  case pos => exact .inl ⟨hturn, program_of_other hturn⟩
  case neg => exact .inr (program_of_turn hturn)

-- A member that is done has run along its timeline.
theorem program_runs {a : α} (hdone : (crew.after schedule m).program i = .done a) (hn : n ≤ m) :
    ∃ u ≤ m, ((crew.after schedule n).program i).Runs (timeline h schedule i) n a u :=
  Program.Follows.runs (fun _ _ _ => program_follows) hn (hdone ▸ ⟨rfl, rfl⟩)

theorem program_reaches {call : Store.Call}
    (hturn : (timeline h schedule i).turn m = .call call) (hn : n ≤ m) :
    ((crew.after schedule n).program i).Reaches (timeline h schedule i) call m n := by
  have hne : (timeline h schedule i).turn m ≠ .other := fun heq => by cases heq.symm.trans hturn
  obtain ⟨r, next, x, hp, hx, -⟩ := program_of_turn hne
  cases r
  case store call' =>
    cases hx.1.symm.trans hturn
    exact Program.Follows.reaches (fun _ _ _ => program_follows) hn hp hx
  case log | report => cases hx.1.symm.trans hturn
  all_goals cases hx

-- Rows change only in a step in which a member's commit is accepted.
theorem Orderly.rows_succ (h : crew.Orderly) (schedule : List ι) (n : Nat) :
    (crew.after schedule (n + 1)).world.store.rows = (crew.after schedule n).world.store.rows ∨
      ∃ i tx changes,
        (timeline h schedule i).Answers n (.store (.commit tx changes)) (.ok ()) := by
  cases hj : schedule[n]?
  case none => exact .inl (by rw [after_succ, hj])
  case some i =>
    by_cases hturn : (timeline h schedule i).turn n = .other
    case pos => exact .inl (by rw [after_of_other hj hturn])
    case neg =>
      obtain ⟨r, next, x, -, hx, -⟩ := program_of_turn hturn
      cases r
      case store call =>
        obtain ⟨hrows, -⟩ | ⟨tx, changes, rfl, hok⟩ := ((h.after n).coherent).answer_same call
        · exact .inl ((congrArg (fun p => p.2.rows) hx.2).symm.trans hrows)
        · exact .inr ⟨i, tx, changes, hx.1, Prod.ext hok (Prod.ext_iff.mp hx.2).2⟩
      case log | report => exact .inl (congrArg Store.rows hx.2)
      all_goals cases hx

end Crew

end NamespaceService
