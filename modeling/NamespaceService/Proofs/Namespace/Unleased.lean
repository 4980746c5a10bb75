import NamespaceService.Proofs.Namespace.Outcomes

namespace NamespaceService

namespace SortedBy

variable {κ α : Type} [Ranked κ] {key : α → κ} {s : SortedBy key} {p : κ → Bool} {a : α}

def only (p : κ → Bool) (s : SortedBy key) : SortedBy key where
  toList := s.toList.filter (p <| key ·)
  sorted := s.sorted.filter _

theorem mem_only_iff : a ∈ (s.only p).toList ↔ a ∈ s.toList ∧ p (key a) :=
  List.mem_filter

variable [DecidableEq κ] {k : κ}

theorem only_insert (h : p (key a)) : (s.insert a).only p = (s.only p).insert a := by
  refine ext_of_mem fun b => ?_
  simp only [mem_only_iff, mem_insert_iff]
  constructor
  case mp => exact fun ⟨hb, hp⟩ => hb.imp_right fun hb => ⟨⟨hb.1, hp⟩, hb.2⟩
  case mpr =>
    rintro (rfl | ⟨⟨hb, hp⟩, hne⟩)
    · exact ⟨.inl rfl, h⟩
    · exact ⟨.inr ⟨hb, hne⟩, hp⟩

theorem only_insert_of_not (h : ¬p (key a)) : (s.insert a).only p = s.only p := by
  refine ext_of_mem fun b => ?_
  simp only [mem_only_iff, mem_insert_iff]
  constructor
  case mp =>
    rintro ⟨rfl | ⟨hb, -⟩, hp⟩
    · exact absurd hp h
    · exact ⟨hb, hp⟩
  case mpr => exact fun ⟨hb, hp⟩ => ⟨.inr ⟨hb, fun heq => h (heq ▸ hp)⟩, hp⟩

theorem only_erase : (s.erase k).only p = (s.only p).erase k := by
  refine ext_of_mem fun b => ?_
  simp only [mem_only_iff, mem_erase_iff]
  exact and_right_comm

theorem only_erase_of_not (h : ¬p k) : (s.erase k).only p = s.only p := by
  refine ext_of_mem fun b => ?_
  simp only [mem_only_iff, mem_erase_iff]
  exact and_congr_left fun hp => and_iff_left fun heq => h (heq ▸ hp)

end SortedBy

def Key.isLease : Key → Bool
  | .lease _ => true
  | _ => false

theorem Row.eq_lease_of_key {row : Row} (h : row.key.isLease) : ∃ lease, row = .lease lease := by
  cases row
  case lease lease => exact ⟨lease, rfl⟩
  case replica r =>
    rw [key] at h
    split at h <;> cases h
  all_goals cases h

namespace Rows

open Namespace

variable {rows rows' : Rows} {change : Change} {changes : List Change} {finder : Finder}

def unleased (rows : Rows) : Rows :=
  rows.only (!·.isLease)

theorem unleased_apply (h : ¬change.key.isLease) :
    (rows.apply change).unleased = rows.unleased.apply change := by
  cases change
  case upsert row => exact SortedBy.only_insert (by simpa [Change.key] using h)
  case remove key => exact SortedBy.only_erase

theorem unleased_apply_lease (h : change.key.isLease) :
    (rows.apply change).unleased = rows.unleased := by
  cases change
  case upsert row => exact SortedBy.only_insert_of_not (by simpa [Change.key] using h)
  case remove key => exact SortedBy.only_erase_of_not (by simpa [Change.key] using h)

theorem unleased_applyAll : (rows.applyAll changes).unleased =
    rows.unleased.applyAll (changes.filter (!·.key.isLease)) := by
  induction changes generalizing rows
  case nil => rfl
  case cons change changes ih =>
    have hrest : (rows.applyAll (change :: changes)).unleased =
        (rows.apply change).unleased.applyAll (changes.filter (!·.key.isLease)) := ih
    by_cases h : change.key.isLease
    case pos => rw [hrest, unleased_apply_lease h, List.filter_cons_of_neg (by simp [h])]
    case neg =>
      rw [hrest, unleased_apply h, List.filter_cons_of_pos (by simp [h])]
      rfl

theorem lookup_unleased (h : ∀ holder, finder ≠ .lease holder) :
    rows.unleased.lookup finder = rows.lookup finder := by
  refine List.find?_filter.trans (congrArg (rows.toList.find? ·) (funext fun row => ?_))
  by_cases hlease : row.key.isLease
  case pos =>
    obtain ⟨lease, rfl⟩ := Row.eq_lease_of_key hlease
    cases finder <;> simp_all [Finder.selects, Finder.key?, Row.key]
  case neg => simp [hlease]

theorem lookupList_unleased : rows.unleased.lookupList finder = rows.lookupList finder := by
  refine List.filter_filter.trans (congrArg (rows.toList.filter ·) (funext fun row => ?_))
  by_cases hlease : row.key.isLease
  case pos =>
    obtain ⟨lease, rfl⟩ := Row.eq_lease_of_key hlease
    cases finder <;> rfl
  case neg => simp [hlease]

section

variable (h : rows.unleased = rows'.unleased)

include h

theorem lookup_congr (hfinder : ∀ holder, finder ≠ .lease holder) :
    rows.lookup finder = rows'.lookup finder := by
  rw [← lookup_unleased hfinder, h, lookup_unleased hfinder]

theorem lookupLists_congr : rows.lookupList = rows'.lookupList := by
  funext finder
  rw [← lookupList_unleased, h, lookupList_unleased]

theorem place_congr : rows.place = rows'.place := by
  have hentry : rows.entryNamed? = rows'.entryNamed? := by
    funext dir name
    rw [entryNamed?, entryNamed?, lookup_congr h (by simp)]
  funext p
  rw [place, place, hentry, lookup_congr h (by simp)]

theorem counterIn_congr (counter : Register) : counterIn counter rows = counterIn counter rows' := by
  rw [counterIn, counterIn, lookup_congr h (by simp)]

theorem childrenIn_congr : childrenIn rows = childrenIn rows' := by
  funext dir
  rw [childrenIn, childrenIn, lookupLists_congr h]

theorem blocksIn_congr : blocksIn rows = blocksIn rows' := by
  funext file
  rw [blocksIn, blocksIn, lookupLists_congr h]

end

end Rows

end NamespaceService
