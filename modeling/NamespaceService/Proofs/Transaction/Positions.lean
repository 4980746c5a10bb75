import NamespaceService.Proofs.Store.Rows
import NamespaceService.Transaction.Acquire

namespace NamespaceService

namespace SortedBy

variable {κ : Type} [Ranked κ] [DecidableEq κ]

theorem mem_ofList_iff {l : List κ} {a : κ} : a ∈ (ofList l : SortedBy (id : κ → κ)).toList ↔ a ∈ l := by
  suffices h : ∀ s : SortedBy (id : κ → κ),
      a ∈ (l.foldl (fun s a => s.insert a) s).toList ↔ a ∈ l ∨ a ∈ s.toList by
    simpa [ofList, empty] using h .empty
  intro s
  induction l generalizing s
  case nil => simp
  case cons b l ih =>
    rw [List.foldl_cons, ih, mem_insert_iff, List.mem_cons]
    by_cases h : a = b <;> simp [h, eq_comm]

end SortedBy

namespace Position

open Ranked

variable {p q : Position} {paths : List Position}

theorem mem_fromRoot_iff : q ∈ p.fromRoot ↔ q <+: p := by
  rw [fromRoot, List.mem_map]
  constructor
  case mp =>
    rintro ⟨i, -, rfl⟩
    exact List.take_prefix i p
  case mpr =>
    intro h
    exact ⟨q.length, List.mem_range.mpr (Nat.lt_succ_of_le h.length_le),
      (List.prefix_iff_eq_take.mp h).symm⟩

theorem mem_closure_iff : q ∈ closure paths ↔ ∃ p ∈ paths, q <+: p := by
  rw [closure, SortedBy.mem_ofList_iff, List.mem_flatMap]
  simp only [mem_fromRoot_iff]

theorem lt_of_extends (h : p <+: q) (hne : p ≠ q) : p < q := by
  obtain ⟨r, rfl⟩ := h
  induction p
  case nil => cases r <;> simp_all
  case cons name p ih => exact List.cons_lt_cons_iff.mpr (.inr ⟨rfl, ih (by simpa using hne)⟩)

theorem append_mark_lt_iff {l l' r r' : List Nat} :
    l.map (· + 1) ++ 0 :: r < l'.map (· + 1) ++ 0 :: r' ↔ l < l' ∨ l = l' ∧ r < r' := by
  induction l generalizing l'
  case nil => cases l' <;> simp [List.cons_lt_cons_iff]
  case cons a l ih =>
    cases l'
    case nil => simp [List.cons_lt_cons_iff]
    case cons b l' =>
      simp only [List.map_cons, List.cons_append, List.cons_lt_cons_iff, ih, List.cons.injEq,
        Nat.add_lt_add_iff_right, Nat.add_right_cancel_iff]
      tauto

theorem codePoints_lt_iff {a b : String} : codePoints a < codePoints b ↔ a < b := by
  suffices h : ∀ l l' : List Char, l.map Char.toNat < l'.map Char.toNat ↔ l < l' from h _ _
  intro l l'
  induction l generalizing l'
  case nil => cases l' <;> simp
  case cons a l ih =>
    cases l'
    case nil => simp
    case cons b l' =>
      have hinj : a.toNat = b.toNat ↔ a = b :=
        ⟨fun h => Char.ext (UInt32.toNat_inj.mp h), congrArg _⟩
      rw [List.map_cons, List.map_cons, List.cons_lt_cons_iff, List.cons_lt_cons_iff, ih, hinj]
      rfl

-- Positions are ordered name by name, and a position comes before those below it.
theorem before_iff_lt : Before p q ↔ p < q := by
  change marks p < marks q ↔ _
  induction p generalizing q
  case nil =>
    cases q
    case nil => simp [marks]
    case cons b q =>
      have hne : marks (b :: q) ≠ [] := by simp [marks]
      obtain ⟨mark, rest, heq⟩ := List.exists_cons_of_ne_nil hne
      rw [heq, marks]
      simp
  case cons a p ih =>
    cases q
    case nil => simp [marks]
    case cons b q =>
      rw [marks, marks, append_mark_lt_iff, ih, List.cons_lt_cons_iff, rank_inj]
      exact or_congr_left codePoints_lt_iff

theorem before_of_append (p : Position) (name : String) : Before p (p ++ [name]) :=
  before_iff_lt.mpr (lt_of_extends (List.prefix_append p [name]) (by simp))

theorem before_of_dropLast (h : p ≠ []) : Before p.dropLast p := by
  have := before_of_append p.dropLast (p.getLast h)
  rwa [List.dropLast_concat_getLast] at this

theorem fromRoot_pairwise_lt : p.fromRoot.Pairwise (· < ·) := by
  refine List.pairwise_map.mpr (List.pairwise_lt_range.imp_of_mem fun {i j} hi hj hlt => ?_)
  have hi : i < p.length + 1 := List.mem_range.mp hi
  have hj : j < p.length + 1 := List.mem_range.mp hj
  refine lt_of_extends (List.take_prefix_take_left (Nat.le_of_lt hlt)) fun heq => ?_
  have := congrArg List.length heq
  simp only [List.length_take] at this
  omega

theorem closure_pairwise_lt : (closure paths).Pairwise (· < ·) :=
  (SortedBy.ofList (paths.flatMap fromRoot) : SortedBy (id : Position → Position)).sorted.imp
    before_iff_lt.mp

theorem closure_singleton : closure [p] = p.fromRoot := by
  have hnodup {l : List Position} (hl : l.Pairwise (· < ·)) : l.Nodup :=
    hl.imp (S := (· ≠ ·)) fun hlt heq => List.lt_irrefl _ (heq ▸ hlt)
  have hsorted : (closure [p]).Pairwise (· < ·) := closure_pairwise_lt
  have hperm : (closure [p]).Perm p.fromRoot :=
    (List.perm_ext_iff_of_nodup (hnodup hsorted) (hnodup fromRoot_pairwise_lt)).mpr fun q => by
      simp [mem_closure_iff, mem_fromRoot_iff]
  exact hperm.eq_of_pairwise (fun _ _ _ _ hlt hgt => absurd hgt (List.lt_asymm hlt)) hsorted
    fromRoot_pairwise_lt

-- The positions before a position of the walk, when the walk comes to it.
theorem of_closure_eq {before rest : List Position} {here : Position}
    (h : closure paths = before ++ here :: rest) :
    here ∉ before ∧ (here ≠ [] → here.dropLast ∈ before) := by
  have hsorted := (SortedBy.ofList (paths.flatMap fromRoot) :
    SortedBy (id : Position → Position)).sorted
  change (closure paths).Pairwise fun a b => Before a b at hsorted
  rw [h] at hsorted
  have ⟨_, hrest, hbefore⟩ := List.pairwise_append.mp hsorted
  constructor
  case left => exact fun hmem => Before.irrefl here (hbefore here hmem here List.mem_cons_self)
  case right =>
    intro hne
    have ⟨p, hp, hhere⟩ := mem_closure_iff.mp (h ▸ List.mem_append_right _ List.mem_cons_self)
    have habove : here.dropLast ∈ before ++ here :: rest :=
      h ▸ mem_closure_iff.mpr ⟨p, hp, (List.dropLast_prefix here).trans hhere⟩
    obtain hmem | hmem := List.mem_append.mp habove
    · exact hmem
    · obtain heq | hmem := List.mem_cons.mp hmem
      · exact absurd heq (before_of_dropLast hne).ne
      · have hafter := (List.pairwise_cons.mp hrest).1 _ hmem
        exact absurd (before_of_dropLast hne) hafter.asymm

theorem closure_eq_cons (h : paths ≠ []) :
    ∃ rest, closure paths = [] :: rest ∧ ∀ p ∈ rest, p ≠ [] := by
  obtain ⟨p, hp⟩ := List.exists_mem_of_ne_nil paths h
  have hmem : [] ∈ closure paths := mem_closure_iff.mpr ⟨p, hp, List.nil_prefix⟩
  cases hc : closure paths
  case nil => simp [hc] at hmem
  case cons first rest =>
    have hfirst : first = [] := by
      by_contra hne
      have hc : closure paths = [] ++ first :: rest := hc
      cases (of_closure_eq hc).2 hne
    subst hfirst
    refine ⟨rest, rfl, fun q hq hnil => ?_⟩
    obtain ⟨before, after, rfl⟩ := List.append_of_mem hq
    have hc : closure paths = ([] :: before) ++ q :: after := hc
    exact (of_closure_eq hc).1 (hnil ▸ List.mem_cons_self)

end Position

end NamespaceService
