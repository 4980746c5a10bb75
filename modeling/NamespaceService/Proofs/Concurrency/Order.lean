import Mathlib.Data.List.Dedup
import NamespaceService.Proofs.Concurrency.Crew

namespace NamespaceService

namespace Timeline

-- The program has made a call before the moment, and makes another one afterwards.
def Amid (σ : Timeline) (τ : Nat) : Prop :=
  ∃ a b, a < τ ∧ τ ≤ b ∧ (∃ call, σ.turn a = .call call) ∧ ∃ call, σ.turn b = .call call

end Timeline

namespace Crew

variable {ι α : Type} [DecidableEq ι] {crew : Crew ι α} {schedule : List ι} {i j : ι} {n : Nat}

def rowsAt (crew : Crew ι α) (schedule : List ι) (n : Nat) : Rows :=
  (crew.after schedule n).world.store.rows

-- In the step, the member makes a call of the store.
def Calls (crew : Crew ι α) (schedule : List ι) (i : ι) (n : Nat) : Prop :=
  schedule[n]? = some i ∧
    ∃ call next, (crew.after schedule n).program i = .ask (.store call) next

-- In the step, the member changes the rows.
def Writes (crew : Crew ι α) (schedule : List ι) (i : ι) (n : Nat) : Prop :=
  schedule[n]? = some i ∧ crew.rowsAt schedule (n + 1) ≠ crew.rowsAt schedule n

-- The member makes a call before the moment and one after it, so that the moment is between its
-- first call and its last one.
def Amid (crew : Crew ι α) (schedule : List ι) (i : ι) (τ : Nat) : Prop :=
  ∃ a b, crew.Calls schedule i a ∧ crew.Calls schedule i b ∧ a < τ ∧ τ ≤ b

theorem Calls.mem (h : crew.Calls schedule i n) : i ∈ schedule :=
  List.mem_of_getElem? h.1

theorem Calls.lt (h : crew.Calls schedule i n) : n < schedule.length :=
  (List.getElem?_eq_some_iff.mp h.1).1

theorem Writes.member_unique (h : crew.Writes schedule i n) (h' : crew.Writes schedule j n) :
    i = j :=
  Option.some.inj (h.1.symm.trans h'.1)

variable {h : crew.Orderly}

theorem member_of_turn (hturn : (timeline h schedule i).turn n ≠ .other) : schedule[n]? = some i := by
  by_contra hne
  exact hturn (if_neg hne)

theorem calls_of_turn {call : Store.Call} (hturn : (timeline h schedule i).turn n = .call call) :
    crew.Calls schedule i n := by
  have hj : schedule[n]? = some i := member_of_turn fun heq => by cases heq.symm.trans hturn
  have hcall : (crew.after schedule n).turn i = .call call := (if_pos hj).symm.trans hturn
  refine ⟨hj, ?_⟩
  cases hp : (crew.after schedule n).program i
  case done => rw [turn, hp] at hcall; cases hcall
  case ask r next =>
    rw [turn, hp] at hcall
    cases r
    case store call' => exact ⟨call', next, rfl⟩
    all_goals cases hcall

theorem amid_of_timeline {τ : Nat} (hamid : (timeline h schedule i).Amid τ) :
    crew.Amid schedule i τ :=
  have ⟨a, b, hlt, hle, ⟨_, ha⟩, _, hb⟩ := hamid
  ⟨a, b, calls_of_turn ha, calls_of_turn hb, hlt, hle⟩

theorem exists_writes (hne : crew.rowsAt schedule (n + 1) ≠ crew.rowsAt schedule n) :
    ∃ i, crew.Writes schedule i n := by
  cases hj : schedule[n]?
  case none => exact absurd (by rw [rowsAt, rowsAt, after_succ, hj]) hne
  case some i => exact ⟨i, hj, hne⟩

end Crew

section

variable {ι S : Type} {state : Nat → S} {act : ι → S → S} {moment : ι → Nat} {s s' s'' : S}
  {order order' : List ι} {m : Nat}

-- One after another they act, and each one finds the state of its moment.
inductive Passes (state : Nat → S) (act : ι → S → S) (moment : ι → Nat) : S → List ι → S → Prop
  | nil (s : S) : Passes state act moment s [] s
  | cons {i : ι} {rest : List ι} {s s' : S} (here : s = state (moment i))
      (h : Passes state act moment (act i s) rest s') : Passes state act moment s (i :: rest) s'

namespace Passes

theorem append (h : Passes state act moment s order s') (h' : Passes state act moment s' order' s'') :
    Passes state act moment s (order ++ order') s'' := by
  induction h
  case nil => exact h'
  case cons here _ ih => exact .cons here (ih h')

-- Those that leave the state alone can come in any order.
theorem still (h : ∀ i ∈ order, moment i = m ∧ act i (state m) = state m) :
    Passes state act moment (state m) order (state m) := by
  induction order
  case nil => exact .nil _
  case cons i rest ih =>
    have ⟨hm, hact⟩ := h i (by simp)
    refine .cons (congrArg state hm.symm) ?_
    rw [hact]
    exact ih fun j hj => h j (by simp [hj])

end Passes

variable [DecidableEq ι] {Takes : ι → Prop} {members : List ι}

-- Of those that take effect at the moment, one may change the state; it comes last.
def Steps (state : Nat → S) (act : ι → S → S) (moment : ι → Nat) (Takes : ι → Prop) (m : Nat) :
    Prop :=
  (state (m + 1) = state m ∧ ∀ i, Takes i → moment i = m → act i (state m) = state m) ∨
    ∃ i, Takes i ∧ moment i = m ∧ act i (state m) = state (m + 1) ∧
      ∀ j, Takes j → moment j = m → j ≠ i → act j (state m) = state m

theorem Steps.exists_block (h : Steps state act moment Takes m)
    (hmembers : ∀ i, Takes i → i ∈ members) : ∃ block : List ι, block.Nodup ∧
      (∀ i, i ∈ block ↔ Takes i ∧ moment i = m) ∧
      Passes state act moment (state m) block (state (m + 1)) := by
  classical
  obtain ⟨hstate, hstill⟩ | ⟨i, hi, him, hact, hstill⟩ := h
  case inl =>
    refine ⟨members.dedup.filter fun i => Takes i ∧ moment i = m, (List.nodup_dedup members).filter _,
      fun i => ?_, ?_⟩
    · simpa using fun hi _ => hmembers i hi
    · rw [hstate]
      refine .still fun i hi => ?_
      obtain ⟨hi, him⟩ : Takes i ∧ moment i = m := by simpa using (List.mem_filter.mp hi).2
      exact ⟨him, hstill i hi him⟩
  case inr =>
    have hmem (j : ι) : j ∈ members.dedup.filter (fun j => (Takes j ∧ moment j = m) ∧ j ≠ i) ↔
        (Takes j ∧ moment j = m) ∧ j ≠ i := by
      simpa using fun hj _ _ => hmembers j hj
    refine ⟨members.dedup.filter (fun j => (Takes j ∧ moment j = m) ∧ j ≠ i) ++ [i], ?_,
      fun j => ?_, .append (.still fun j hj => ?_) (.cons (congrArg state him.symm) ?_)⟩
    · refine ((List.nodup_dedup members).filter _).append (List.nodup_singleton i) ?_
      simp
    · rw [List.mem_append, hmem, List.mem_singleton]
      by_cases hji : j = i
      case pos => simp [hji, hi, him]
      case neg => simp [hji]
    · obtain ⟨⟨hj, hjm⟩, hji⟩ := (hmem j).mp hj
      exact ⟨hjm, hstill j hj hjm hji⟩
    · rw [hact]
      exact .nil _

-- Moment by moment, an order comes about in which everyone finds the state of its moment.
theorem exists_order (hsteps : ∀ m, Steps state act moment Takes m)
    (hmembers : ∀ i, Takes i → i ∈ members) (m : Nat) : ∃ order : List ι, order.Nodup ∧
      order.Pairwise (fun i j => moment i ≤ moment j) ∧
      (∀ i, i ∈ order ↔ Takes i ∧ moment i < m) ∧
      Passes state act moment (state 0) order (state m) := by
  induction m
  case zero => exact ⟨[], .nil, .nil, by simp, .nil _⟩
  case succ m ih =>
    obtain ⟨order, hnodup, hsorted, hmem, hpasses⟩ := ih
    obtain ⟨block, hnodup', hmem', hpasses'⟩ := (hsteps m).exists_block hmembers
    refine ⟨order ++ block, hnodup.append hnodup' fun i hi hi' => ?_,
      List.pairwise_append.mpr ⟨hsorted, ?_, fun i hi j hj => ?_⟩, fun i => ?_,
      hpasses.append hpasses'⟩
    · have := ((hmem i).mp hi).2
      have := ((hmem' i).mp hi').2
      omega
    · refine hnodup'.imp_of_mem fun hi hj _ => ?_
      rw [((hmem' _).mp hi).2, ((hmem' _).mp hj).2]
    · rw [((hmem' j).mp hj).2]
      exact ((hmem i).mp hi).2.le
    · rw [List.mem_append, hmem, hmem', ← and_or_left, Nat.lt_succ_iff_lt_or_eq]

end

end NamespaceService
