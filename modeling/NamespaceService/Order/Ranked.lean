namespace NamespaceService

-- Keys are ordered by rank, a list of numbers compared lexicographically, and different keys have
-- different ranks.
class Ranked (κ : Type) where
  rank : κ → List Nat
  rank_injective : ∀ {a b : κ}, rank a = rank b → a = b

namespace Ranked

variable {κ : Type} [Ranked κ]

@[simp]
theorem rank_inj {a b : κ} : rank a = rank b ↔ a = b :=
  ⟨rank_injective, congrArg rank⟩

-- Strict order of keys: the smaller rank comes first.
def Before (a b : κ) : Prop :=
  rank a < rank b

instance (a b : κ) : Decidable (Before a b) :=
  inferInstanceAs (Decidable (rank a < rank b))

theorem Before.irrefl (a : κ) : ¬Before a a :=
  List.lt_irrefl (rank a)

theorem Before.trans {a b c : κ} (hab : Before a b) (hbc : Before b c) : Before a c :=
  List.lt_trans hab hbc

theorem Before.asymm {a b : κ} (hab : Before a b) : ¬Before b a :=
  fun hba => Before.irrefl a (hab.trans hba)

theorem Before.ne {a b : κ} (hab : Before a b) : a ≠ b :=
  fun h => Before.irrefl b (h ▸ hab)

theorem Before.trichotomy (a b : κ) : Before a b ∨ a = b ∨ Before b a := by
  rcases Std.lt_trichotomy (rank a) (rank b) with h | h | h
  · exact .inl h
  · exact .inr (.inl (rank_injective h))
  · exact .inr (.inr h)

theorem Before.of_not {a b : κ} (hab : ¬Before a b) (hne : a ≠ b) : Before b a := by
  rcases Before.trichotomy a b with h | h | h
  · exact absurd h hab
  · exact absurd h hne
  · exact h

-- The order of UTF-8 bytes is the order of code points.
def codePoints (s : String) : List Nat :=
  s.toList.map Char.toNat

theorem codePoints_injective {s t : String} (h : codePoints s = codePoints t) : s = t := by
  have inj : ∀ a b : Char, a.toNat = b.toNat → a = b := fun a b h =>
    Char.ext (UInt32.toNat_inj.mp h)
  exact String.toList_inj.mp ((List.map_inj_right inj).mp h)

end Ranked

instance : Ranked Nat where
  rank n := [n]
  rank_injective h := by simpa using h

instance : Ranked UInt64 where
  rank n := [n.toNat]
  rank_injective h := UInt64.toNat_inj.mp (by simpa using h)

instance : Ranked String where
  rank := Ranked.codePoints
  rank_injective := Ranked.codePoints_injective

instance : Ranked (UInt64 × String) where
  rank p := p.1.toNat :: Ranked.codePoints p.2
  rank_injective h := by
    obtain ⟨hid, htext⟩ := List.cons.inj h
    exact Prod.ext (UInt64.toNat_inj.mp hid) (Ranked.codePoints_injective htext)

end NamespaceService
