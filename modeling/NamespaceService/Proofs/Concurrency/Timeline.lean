import NamespaceService.Program
import NamespaceService.Proofs.Store.Versions

namespace NamespaceService

-- Either nothing happens to the store, or someone's call is answered.
def Store.Next (s s' : Store) : Prop :=
  s' = s ∨ ∃ call, s' = (s.answer call).2

-- What a step is to the program: someone else's, a call of its own, or a line or report of its own.
inductive Turn
  | other
  | call (call : Store.Call)
  | silent

structure Timeline where
  store : Nat → Store
  turn : Nat → Turn
  start : (store 0).Coherent
  next (n : Nat) : (store n).Next (store (n + 1))

namespace Timeline

variable (σ : Timeline) {m n t u : Nat}

theorem coherent_later_succ (h : (σ.store n).Coherent) :
    (σ.store n).Later (σ.store (n + 1)) ∧ (σ.store (n + 1)).Coherent := by
  obtain hn | ⟨call, hn⟩ := σ.next n
  · rw [hn]
    exact ⟨.refl _, h⟩
  · rw [hn]
    exact h.answer call

theorem coherent (n : Nat) : (σ.store n).Coherent := by
  induction n
  case zero => exact σ.start
  case succ n ih => exact (σ.coherent_later_succ ih).2

theorem later (h : m ≤ n) : (σ.store m).Later (σ.store n) := by
  induction h
  case refl => exact .refl _
  case step n _ ih => exact ih.trans (σ.coherent_later_succ (σ.coherent n)).1

def rows (n : Nat) : Rows :=
  (σ.store n).rows

def version (n : Nat) (key : Key) : Nat :=
  (σ.store n).version key

-- Nobody changes the rows.
def Steady (rows : Rows) : Prop :=
  ∀ n, σ.rows n = rows

-- The answer to a request in one step. Reports and log lines leave the store alone.
def Answers (n : Nat) : (r : Request) → r.Response → Prop
  | .store call, x => σ.turn n = .call call ∧ (σ.store n).answer call = (x, σ.store (n + 1))
  | .log _, _ | .report _, _ => σ.turn n = .silent ∧ σ.store (n + 1) = σ.store n
  | _, _ => False

-- The first step from `t` on that is not someone else's.
structure Next (t n : Nat) : Prop where
  le : t ≤ n
  other {m : Nat} : t ≤ m → m < n → σ.turn m = .other

variable {σ}

theorem Next.unique {n' : Nat} (h : σ.Next t n) (h' : σ.Next t n') (hn : σ.turn n ≠ .other)
    (hn' : σ.turn n' ≠ .other) : n = n' := by
  obtain hlt | heq | hlt := Nat.lt_trichotomy n n'
  · exact absurd (h'.other h.le hlt) hn
  · exact heq
  · exact absurd (h.other h'.le hlt) hn'

theorem Next.wait (h : σ.Next (t + 1) n) (hturn : σ.turn t = .other) : σ.Next t n where
  le := by
    have := h.le
    omega
  other {m} hm hn := by
    obtain rfl | hm := Nat.eq_or_lt_of_le hm
    · exact hturn
    · exact h.other hm hn

theorem Answers.turn_ne {r : Request} {x : r.Response} (h : σ.Answers n r x) :
    σ.turn n ≠ .other := by
  intro hother
  cases r <;> simp [Answers, hother] at h

theorem Answers.unique {r : Request} {x y : r.Response} (hx : σ.Answers n r x)
    (hy : σ.Answers n r y) : x = y := by
  cases r
  case store call => exact (Prod.ext_iff.mp (hx.2.symm.trans hy.2)).1
  case log | report => rfl
  all_goals cases hx

end Timeline

namespace Program

variable {σ : Timeline} {α β : Type} {p : Program α} {f : α → Program β} {t u n : Nat}
  {call : Store.Call}

-- Started at time `t`, the program ends at time `u` with the value `a`.
def Runs (σ : Timeline) : Program α → Nat → α → Nat → Prop
  | done b, t, a, u => b = a ∧ t = u
  | ask r next, t, a, u => ∃ n x, σ.Next t n ∧ σ.Answers n r x ∧ (next x).Runs σ (n + 1) a u

-- Started at time `t`, the program makes the call in step `n`.
def Reaches (σ : Timeline) (call : Store.Call) (n : Nat) : Program α → Nat → Prop
  | done _, _ => False
  | ask r next, t =>
    (r = .store call ∧ σ.Next t n ∧ ∃ x, σ.Answers n (.store call) x) ∨
      ∃ m x, σ.Next t m ∧ σ.Answers m r x ∧ (next x).Reaches σ call n (m + 1)

-- What holds after every run along a timeline.
def Ensures (σ : Timeline) (p : Program α) (t : Nat) (Q : α → Nat → Prop) : Prop :=
  ∀ a u, p.Runs σ t a u → Q a u

theorem Runs.le {a : α} (h : p.Runs σ t a u) : t ≤ u := by
  induction p generalizing t
  case done b => exact h.2.le
  case ask r next ih =>
    have ⟨n, x, hn, _, hr⟩ := h
    exact hn.le.trans (n.le_succ.trans (ih x hr))

theorem runs_bind {b : β} :
    (p >>= f).Runs σ t b u ↔ ∃ a s, p.Runs σ t a s ∧ (f a).Runs σ s b u := by
  induction p generalizing t
  case done a => simp [Runs]
  case ask r next ih =>
    simp only [ask_bind, Runs, ih]
    constructor
    case mp =>
      rintro ⟨n, x, hn, hx, a, s, ha, hb⟩
      exact ⟨a, s, ⟨n, x, hn, hx, ha⟩, hb⟩
    case mpr =>
      rintro ⟨a, s, ⟨n, x, hn, hx, ha⟩, hb⟩
      exact ⟨n, x, hn, hx, a, s, ha, hb⟩

theorem reaches_bind :
    (p >>= f).Reaches σ call n t ↔
      p.Reaches σ call n t ∨ ∃ a s, p.Runs σ t a s ∧ (f a).Reaches σ call n s := by
  induction p generalizing t
  case done a => simp [Reaches, Runs]
  case ask r next ih =>
    simp only [ask_bind, Reaches, Runs, ih]
    constructor
    case mp =>
      rintro (h | ⟨m, x, hm, hx, h | ⟨a, s, ha, h⟩⟩)
      · exact .inl (.inl h)
      · exact .inl (.inr ⟨m, x, hm, hx, h⟩)
      · exact .inr ⟨a, s, ⟨m, x, hm, hx, ha⟩, h⟩
    case mpr =>
      rintro ((h | ⟨m, x, hm, hx, h⟩) | ⟨a, s, ⟨m, x, hm, hx, ha⟩, h⟩)
      · exact .inl h
      · exact .inr ⟨m, x, hm, hx, .inl h⟩
      · exact .inr ⟨m, x, hm, hx, .inr ⟨a, s, ha, h⟩⟩

-- Who claims a log line makes no difference to a run.
theorem runs_claimedBy {name : String} {a : α} :
    (p.claimedBy name).Runs σ t a u ↔ p.Runs σ t a u := by
  induction p generalizing t
  case done b => rfl
  case ask r next ih =>
    cases r
    case log line =>
      exact exists_congr fun n => exists_congr fun x =>
        and_congr_right fun _ => and_congr_right fun _ => ih x
    all_goals simp only [claimedBy, Runs, ih]

theorem reaches_claimedBy {name : String} :
    (p.claimedBy name).Reaches σ call n t ↔ p.Reaches σ call n t := by
  induction p generalizing t
  case done b => rfl
  case ask r next ih =>
    cases r
    case log line =>
      refine or_congr (by simp) (exists_congr fun m => exists_congr fun x => ?_)
      exact and_congr_right fun _ => and_congr_right fun _ => ih x
    all_goals simp only [claimedBy, Reaches, ih]

namespace Ensures

variable {P Q : α → Nat → Prop} {R : β → Nat → Prop}

theorem done {a : α} (h : Q a t) : (done a).Ensures σ t Q := by
  rintro _ _ ⟨rfl, rfl⟩
  exact h

theorem ask {r : Request} {next : r.Response → Program α}
    (h : ∀ n x, t ≤ n → σ.Answers n r x → (next x).Ensures σ (n + 1) Q) :
    (ask r next).Ensures σ t Q := by
  rintro a u ⟨n, x, hn, hx, hr⟩
  exact h n x hn.le hx a u hr

theorem mono (h : p.Ensures σ t P) (hpq : ∀ a u, t ≤ u → P a u → Q a u) : p.Ensures σ t Q :=
  fun a u hr => hpq a u hr.le (h a u hr)

theorem bind (hp : p.Ensures σ t P) (hf : ∀ a s, t ≤ s → P a s → (f a).Ensures σ s R) :
    (p >>= f).Ensures σ t R := by
  intro b u h
  have ⟨a, s, ha, hb⟩ := runs_bind.mp h
  exact hf a s ha.le (hp a s ha) b u hb

theorem log {level : Level} {message : String} {Q : Unit → Nat → Prop}
    (h : ∀ u, t ≤ u → Q () u) : (Program.log level message).Ensures σ t Q :=
  .ask fun n _ hn _ => .done (h (n + 1) (by omega))

end Ensures

end Program

end NamespaceService
