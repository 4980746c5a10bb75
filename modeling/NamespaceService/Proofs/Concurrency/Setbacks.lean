import NamespaceService.Proofs.Concurrency.Requests
import NamespaceService.Proofs.Store.Faults

namespace NamespaceService

namespace Request

-- The answer is a fault that was queued in the store.
def faulted : (r : Request) → r.Response → Bool
  | .store call, x => call.faulted x
  | _, _ => false

def Harmless (r : Request) : Prop :=
  ∀ tx changes, r ≠ .store (.commit tx changes)

theorem Silent.harmless {r : Request} (h : r.Silent) : r.Harmless := by
  rintro tx changes rfl
  exact h

theorem Silent.faulted_eq {r : Request} (h : r.Silent) (x : r.Response) : r.faulted x = false := by
  cases r
  case log | report => rfl
  all_goals exact h.elim

end Request

namespace Program

variable {α β : Type} {p : Program α} {f : α → Program β} {Before Before' : Program α → Prop}
  {After : Program β → Prop} {Good Bad : α → Prop} {Bad' : β → Prop} {name : String}

-- With nothing but lines and reports to come, the value is settled, and the program gets there.
theorem Settles.exists_runs {σ : Timeline} {t : Nat} (hp : p.Settles Good)
    (hσ : ∀ n, t ≤ n → σ.turn n = .silent ∧ σ.store (n + 1) = σ.store n) :
    ∃ a u, Good a ∧ p.Settles (· = a) ∧ p.Runs σ t a u := by
  induction p generalizing t
  case done a => exact ⟨a, t, hp, rfl, rfl, rfl⟩
  case ask r next ih =>
    cases r
    case log | report =>
      obtain ⟨a, u, ha, hsettles, hruns⟩ := ih () (t := t + 1) (hp.2 ()) fun n hn => hσ n (by omega)
      exact ⟨a, u, ha, ⟨trivial, fun _ => hsettles⟩, t, (), ⟨le_rfl, by omega⟩, hσ t le_rfl, hruns⟩
    all_goals exact hp.1.elim

-- What the program does from a fault on.
def Falters (After : Program α → Prop) : Program α → Prop
  | done _ => True
  | ask r next => ∀ x, (r.faulted x → After (next x)) ∧ (next x).Falters After

namespace Falters

theorem bind (hp : p.Falters Before) (hafter : ∀ q, Before q → After (q >>= f))
    (hf : ∀ a, (f a).Falters After) : (p >>= f).Falters After := by
  induction p
  case done a => exact hf a
  case ask r next ih => exact fun x => ⟨fun hx => hafter _ ((hp x).1 hx), ih x (hp x).2⟩

theorem of_settles (hp : p.Settles Good) : p.Falters Before := by
  induction p
  case done => trivial
  case ask r next ih =>
    refine fun x => ⟨fun hx => ?_, ih x (hp.2 x)⟩
    rw [hp.1.faulted_eq x] at hx
    cases hx

-- Work that never commits does not do so after a fault either.
theorem of_keeps (hp : p.Keeps Request.Harmless Good) :
    p.Falters (Keeps Request.Harmless Good) := by
  induction p
  case done => trivial
  case ask r next ih => exact fun x => ⟨fun _ => hp.2 x, ih x (hp.2 x)⟩

theorem log {level : Level} {message : String} {After : Program Unit → Prop} :
    (Program.log level message).Falters After :=
  fun _ => ⟨nofun, trivial⟩

theorem claimedBy {After : Program α → Prop} (hp : p.Falters Before)
    (hafter : ∀ q, Before q → After (q.claimedBy name)) : (p.claimedBy name).Falters After := by
  induction p
  case done => trivial
  case ask r next ih =>
    cases r
    case log line => exact fun x => ⟨fun hx => (by cases hx), ih x (hp x).2⟩
    all_goals exact fun x => ⟨fun hx => hafter _ ((hp x).1 hx), ih x (hp x).2⟩

end Falters

-- Without a commit, the program comes to be a `Fresh` one, or ends with a `Bad` value.
def Returns (Fresh : Program α → Prop) (Bad : α → Prop) : Program α → Prop
  | done a => Fresh (done a) ∨ Bad a
  | ask r next => Fresh (ask r next) ∨ r.Harmless ∧ ∀ x, (next x).Returns Fresh Bad

namespace Returns

variable {Fresh : Program α → Prop} {Fresh' : Program β → Prop}

theorem of_fresh (h : Fresh p) : p.Returns Fresh Bad := by
  cases p
  all_goals exact .inl h

theorem bind (hp : p.Returns Fresh Bad) (hfresh : ∀ q, Fresh q → (q >>= f).Returns Fresh' Bad')
    (hf : ∀ a, Bad a → (f a).Returns Fresh' Bad') : (p >>= f).Returns Fresh' Bad' := by
  induction p
  case done a => exact hp.elim (hfresh _) (hf a)
  case ask r next ih =>
    obtain hp | ⟨hr, hp⟩ := hp
    · exact hfresh _ hp
    · exact .inr ⟨hr, fun x => ih x (hp x)⟩

theorem of_keeps (hp : p.Keeps Request.Harmless Good)
    (hf : ∀ a, Good a → (f a).Returns Fresh' Bad') : (p >>= f).Returns Fresh' Bad' := by
  induction p
  case done a => exact hf a hp
  case ask r next ih => exact .inr ⟨hp.1, fun x => ih x (hp.2 x)⟩

theorem claimedBy {Fresh' : Program α → Prop} (hp : p.Returns Fresh Bad)
    (hfresh : ∀ q, Fresh q → (q.claimedBy name).Returns Fresh' Bad) :
    (p.claimedBy name).Returns Fresh' Bad := by
  induction p
  case done a => exact hp.elim (hfresh _) .inr
  case ask r next ih =>
    obtain hp | ⟨hr, hp⟩ := hp
    · exact hfresh _ hp
    · cases r
      case log line => exact .inr ⟨nofun, fun x => ih x (hp x)⟩
      all_goals exact .inr ⟨hr, fun x => ih x (hp x)⟩

end Returns

end Program

end NamespaceService
