import NamespaceService.Proofs.Concurrency.Timeline
import NamespaceService.Transaction.Task

namespace NamespaceService

-- Actions and tasks, which differ in what can go wrong.
abbrev Stage (ε α : Type) := ExceptT ε (StateT Context Program) α

namespace Stage

variable {ε α β : Type} {σ : Timeline} {m : Stage ε α} {c : Context} {t : Nat}

theorem bind_apply (m : Stage ε α) (f : α → Stage ε β) (c : Context) :
    (m >>= f) c = (show Program _ from m c) >>= fun
      | (.ok a, c) => f a c
      | (.error e, c) => .done (.error e, c) := by
  refine congrArg (Program.bind (m c)) (funext fun (r, c) => ?_)
  cases r <;> rfl

-- The work ends without an error, and then `Q` holds.
def Gives (σ : Timeline) (m : Stage ε α) (c : Context) (t : Nat)
    (Q : α → Context → Nat → Prop) : Prop :=
  Program.Ensures σ (m c) t fun (r, c') u => ∃ a, r = .ok a ∧ Q a c' u

namespace Gives

variable {P Q : α → Context → Nat → Prop} {R : β → Context → Nat → Prop}

theorem pure {a : α} (h : Q a c t) : Gives σ (pure a : Stage ε α) c t Q :=
  .done ⟨a, rfl, h⟩

theorem mono (h : Gives σ m c t P) (hpq : ∀ a c' u, t ≤ u → P a c' u → Q a c' u) :
    Gives σ m c t Q :=
  Program.Ensures.mono h fun _ u hu ⟨a, ha, hp⟩ => ⟨a, ha, hpq a _ u hu hp⟩

theorem bind {f : α → Stage ε β} (hm : Gives σ m c t P)
    (hf : ∀ a c' s, t ≤ s → P a c' s → Gives σ (f a) c' s R) : Gives σ (m >>= f) c t R := by
  rw [Gives, bind_apply]
  refine Program.Ensures.bind hm fun (r, c') s hs ⟨a, ha, hp⟩ => ?_
  cases ha
  exact hf a c' s hs hp

theorem get {Q : Context → Context → Nat → Prop} (h : Q c c t) :
    Gives σ (get : Stage ε Context) c t Q :=
  .done ⟨c, rfl, h⟩

end Gives

end Stage

namespace Program

variable {σ : Timeline} {t : Nat} {kind : LockKind} {finder : Finder} {tx : TxId}

-- What a transaction has found under a lock at some moment from `t` on, and before `u`.
structure FoundBy (σ : Timeline) (tx : TxId) (t u : Nat) (kind : LockKind) (finder : Finder)
    (found : Option Row) (n : Nat) : Prop where
  le : t ≤ n
  lt : n < u
  eq : found = (σ.rows n).lookup finder
  restsOn {key : Key} : kind ≠ .readCommitted → Store.restsOn? finder found = some key →
    (σ.store u).RestsOn tx key (σ.version n key)

structure ListedBy (σ : Timeline) (tx : TxId) (t u : Nat) (kind : LockKind) (finder : Finder)
    (found : List Row) (n : Nat) : Prop where
  le : t ≤ n
  lt : n < u
  eq : found = (σ.rows n).lookupList finder
  restsOn {row : Row} : kind ≠ .readCommitted → row ∈ found →
    (σ.store u).RestsOn tx row.key (σ.version n row.key)

theorem Ensures.call {call : Store.Call} {Q : call.Response → Nat → Prop}
    (h : ∀ n, t ≤ n → σ.turn n = .call call → σ.store (n + 1) = ((σ.store n).answer call).2 →
      Q ((σ.store n).answer call).1 (n + 1)) : (Program.call call).Ensures σ t Q := by
  refine .ask fun n x hn ⟨hturn, hx⟩ => .done ?_
  have := h n hn hturn (by rw [hx])
  rwa [hx] at this

theorem lockedFind_ensures :
    (lockedFind kind finder tx).Ensures σ t fun r u =>
      ∃ found, r = .ok found ∧ ∃ n, FoundBy σ tx t u kind finder found n := by
  have hcall : (Program.call (.find tx kind finder)).Ensures σ t fun r u =>
      ∃ found n, r = .ok found ∧ FoundBy σ tx t u kind finder found n := by
    refine .call fun n hn _ hnext => ⟨_, n, congrArg Prod.fst (Store.find_eq (σ.coherent n)), ?_⟩
    refine ⟨hn, n.lt_succ_self, rfl, fun hk hkey => ?_⟩
    rw [hnext]
    exact Store.find_restsOn (σ.coherent n) hk hkey
  refine hcall.bind fun r s _ ⟨found, n, hr, hf⟩ => ?_
  cases hr
  refine Ensures.bind (P := fun _ u => s ≤ u) (.log fun _ hu => hu) fun _ u _ hu => ?_
  exact .done ⟨found, rfl, n, { hf with
    lt := hf.lt.trans_le hu
    restsOn := fun hk hkey => (hf.restsOn hk hkey).later (σ.later hu) }⟩

theorem lockedList_ensures :
    (lockedList kind finder tx).Ensures σ t fun r u =>
      ∃ found, r = .ok found ∧ ∃ n, ListedBy σ tx t u kind finder found n := by
  have hcall : (Program.call (.findList tx kind finder)).Ensures σ t fun r u =>
      ∃ found n, r = .ok found ∧ ListedBy σ tx t u kind finder found n := by
    refine .call fun n hn _ hnext =>
      ⟨_, n, congrArg Prod.fst (Store.findList_eq (σ.coherent n)), ?_⟩
    refine ⟨hn, n.lt_succ_self, rfl, fun hk hrow => ?_⟩
    rw [hnext]
    exact Store.findList_restsOn (σ.coherent n) hk hrow
  refine hcall.bind fun r s _ ⟨found, n, hr, hf⟩ => ?_
  cases hr
  refine Ensures.bind (P := fun _ u => s ≤ u) (.log fun _ hu => hu) fun _ u _ hu => ?_
  exact .done ⟨found, rfl, n, { hf with
    lt := hf.lt.trans_le hu
    restsOn := fun hk hrow => (hf.restsOn hk hrow).later (σ.later hu) }⟩

theorem probe_ensures :
    (probe finder tx).Ensures σ t fun r u =>
      ∃ found, r = .ok found ∧ ∃ n, t ≤ n ∧ n < u ∧ found = (σ.rows n).lookup finder :=
  Ensures.bind (P := fun found u => ∃ n, t ≤ n ∧ n < u ∧ found = (σ.rows n).lookup finder)
    (.call fun n hn _ _ => ⟨n, hn, n.lt_succ_self, rfl⟩) fun found _ _ h => .done ⟨found, rfl, h⟩

end Program

namespace Action

open Stage

variable {σ : Timeline} {c : Context} {t : Nat} {kind : LockKind} {finder : Finder}

theorem log_gives {level : Level} {message : String} {Q : Unit → Context → Nat → Prop}
    (h : ∀ u, t ≤ u → Q () c u) : Gives σ (log level message) c t Q :=
  Program.Ensures.bind (Program.Ensures.log h) fun _ _ _ hq => .done ⟨(), rfl, hq⟩

theorem change_gives {f : Context → Context} {Q : Unit → Context → Nat → Prop}
    (h : Q () (f c) t) : Gives σ (change f) c t Q :=
  .done ⟨(), rfl, h⟩

theorem reading_gives {α : Type} {known : Context → Option α} {P : α → Nat → Prop}
    {ask : TxId → Program (Except Fault α)} {learn : Context → α → Context}
    (ho : c.sealed = false) (hask : (ask c.tx).Ensures σ t fun r u => ∃ a, r = .ok a ∧ P a u) :
    Gives σ (reading finder known ask learn) c t fun a c' u =>
      known c = some a ∧ c' = c ∨ known c = none ∧ P a u ∧ c' = learn c a := by
  rw [Gives, reading]
  split
  case h_1 answer hk => exact .done ⟨answer, rfl, .inl ⟨hk, rfl⟩⟩
  case h_2 hk =>
    rw [ho]
    refine Program.Ensures.bind hask fun _ u _ ⟨a, ha, hp⟩ => ?_
    cases ha
    exact .done ⟨a, rfl, .inr ⟨hk, hp, rfl⟩⟩

theorem lockFind_gives (ho : c.sealed = false) :
    Gives σ (lockFind kind finder) c t fun found c' u =>
      c.lockedAnswer? kind finder = some found ∧ c' = c ∨
      c.lockedAnswer? kind finder = none ∧
        (∃ n, Program.FoundBy σ c.tx t u kind finder found n) ∧
        c' = c.learnLocked kind finder found :=
  reading_gives ho Program.lockedFind_ensures

theorem lockList_gives (ho : c.sealed = false) :
    Gives σ (lockList kind finder) c t fun found c' u =>
      c.lockedList? kind finder = some found ∧ c' = c ∨
      c.lockedList? kind finder = none ∧
        (∃ n, Program.ListedBy σ c.tx t u kind finder found n) ∧
        c' = c.learnLockedList kind finder found :=
  reading_gives ho Program.lockedList_ensures

theorem probe_gives (ho : c.sealed = false) :
    Gives σ (probe finder) c t fun found c' u =>
      c.knownSingle? finder = some found ∧ c' = c ∨
      c.knownSingle? finder = none ∧
        (∃ n, t ≤ n ∧ n < u ∧ found = (σ.rows n).lookup finder) ∧ c' = c :=
  reading_gives ho Program.probe_ensures

end Action

end NamespaceService
