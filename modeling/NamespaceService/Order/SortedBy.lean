import NamespaceService.Order.Ranked

namespace NamespaceService

open Ranked

structure SortedBy {κ α : Type} [Ranked κ] (key : α → κ) where
  toList : List α
  sorted : toList.Pairwise fun a b => Before (key a) (key b)

namespace SortedBy

variable {κ α : Type} [Ranked κ] {key : α → κ}

@[ext]
theorem ext {s t : SortedBy key} (h : s.toList = t.toList) : s = t := by
  cases s; cases t; cases h; rfl

instance [DecidableEq α] : DecidableEq (SortedBy key) := fun _ _ =>
  decidable_of_iff _ SortedBy.ext_iff.symm

def empty : SortedBy key where
  toList := []
  sorted := .nil

instance : EmptyCollection (SortedBy key) := ⟨empty⟩
instance : Inhabited (SortedBy key) := ⟨empty⟩

def size (s : SortedBy key) : Nat :=
  s.toList.length

def isEmpty (s : SortedBy key) : Bool :=
  s.toList.isEmpty

-- An item whose key is already listed takes the place of the listed one.
def insertInto (key : α → κ) [DecidableEq κ] (a : α) : List α → List α
  | [] => [a]
  | b :: l =>
    if Before (key a) (key b) then a :: b :: l
    else if key a = key b then a :: l
    else b :: insertInto key a l

variable [DecidableEq κ]

theorem mem_insertInto {a b : α} {l : List α} (h : b ∈ insertInto key a l) : b = a ∨ b ∈ l := by
  induction l with
  | nil => simpa [insertInto] using h
  | cons c l ih =>
    rw [insertInto] at h
    split at h
    · simpa using h
    · split at h
      · rcases List.mem_cons.mp h with h | h
        · exact .inl h
        · exact .inr (List.mem_cons_of_mem _ h)
      · rcases List.mem_cons.mp h with h | h
        · exact .inr (h ▸ List.mem_cons_self)
        · exact (ih h).imp_right (List.mem_cons_of_mem _)

theorem insertInto_sorted (a : α) {l : List α}
    (h : l.Pairwise fun a b => Before (key a) (key b)) :
    (insertInto key a l).Pairwise fun a b => Before (key a) (key b) := by
  induction l with
  | nil => simp [insertInto]
  | cons b l ih =>
    have ⟨hb, hl⟩ := List.pairwise_cons.mp h
    rw [insertInto]
    split
    next hab =>
      refine List.pairwise_cons.mpr ⟨fun c hc => ?_, h⟩
      rcases List.mem_cons.mp hc with hc | hc
      · exact hc ▸ hab
      · exact hab.trans (hb c hc)
    next hab =>
      split
      next hk => exact List.pairwise_cons.mpr ⟨fun c hc => hk ▸ hb c hc, hl⟩
      next hk =>
        refine List.pairwise_cons.mpr ⟨fun c hc => ?_, ih hl⟩
        rcases mem_insertInto hc with hc | hc
        · exact hc ▸ Before.of_not hab hk
        · exact hb c hc

def insert (a : α) (s : SortedBy key) : SortedBy key where
  toList := insertInto key a s.toList
  sorted := insertInto_sorted a s.sorted

def erase (k : κ) (s : SortedBy key) : SortedBy key where
  toList := s.toList.filter (key · ≠ k)
  sorted := s.sorted.filter _

def find? (s : SortedBy key) (k : κ) : Option α :=
  s.toList.find? (key · = k)

def contains (s : SortedBy key) (k : κ) : Bool :=
  s.toList.any (key · = k)

def ofList (l : List α) : SortedBy key :=
  l.foldl (fun s a => s.insert a) empty

@[simp]
theorem find?_empty (k : κ) : (empty : SortedBy key).find? k = none :=
  rfl

theorem key_of_find? {s : SortedBy key} {k : κ} {a : α} (h : s.find? k = some a) : key a = k := by
  simpa using List.find?_some h

theorem mem_of_find? {s : SortedBy key} {k : κ} {a : α} (h : s.find? k = some a) :
    a ∈ s.toList :=
  List.mem_of_find?_eq_some h

theorem find?_of_mem {s : SortedBy key} {a : α} (h : a ∈ s.toList) :
    s.find? (key a) = some a := by
  obtain ⟨l, hl⟩ := s
  simp only [find?] at *
  induction l with
  | nil => cases h
  | cons b l ih =>
    have ⟨hb, hl⟩ := List.pairwise_cons.mp hl
    rcases List.mem_cons.mp h with h | h
    · simp [h]
    · have hne : key b ≠ key a := (hb a h).ne
      simpa [List.find?_cons, hne] using ih hl h

theorem find?_eq_some_iff {s : SortedBy key} {k : κ} {a : α} :
    s.find? k = some a ↔ a ∈ s.toList ∧ key a = k :=
  ⟨fun h => ⟨mem_of_find? h, key_of_find? h⟩, fun ⟨h, hk⟩ => hk ▸ find?_of_mem h⟩

theorem find?_insertInto (a : α) (l : List α) (k : κ) :
    (insertInto key a l).find? (key · = k) =
      if key a = k then some a else l.find? (key · = k) := by
  induction l with
  | nil => by_cases h : key a = k <;> simp [insertInto, h]
  | cons b l ih =>
    rw [insertInto]
    split
    · by_cases h : key a = k <;> simp [List.find?_cons, h]
    · split
      next hk => by_cases h : key a = k <;> simp_all
      next hk =>
        by_cases h : key a = k
        · have : key b ≠ k := fun hb => hk (h.trans hb.symm)
          simp [this, ih, h]
        · simp [List.find?_cons, ih, h]

theorem find?_insert (s : SortedBy key) (a : α) (k : κ) :
    (s.insert a).find? k = if key a = k then some a else s.find? k :=
  find?_insertInto a s.toList k

theorem find?_erase (s : SortedBy key) (k k' : κ) :
    (s.erase k).find? k' = if k = k' then none else s.find? k' := by
  simp only [find?, erase, List.find?_filter]
  split
  next h => subst h; simp
  next h =>
    congr 1; funext a
    by_cases ha : key a = k'
    · simp [ha, Ne.symm h]
    · simp [ha]

end SortedBy

end NamespaceService
