import Mathlib.Tactic.Common
import NamespaceService.Store.Basic

namespace NamespaceService

namespace SortedBy

variable {κ α : Type} [Ranked κ] {key : α → κ}

theorem nodup_toList (s : SortedBy key) : s.toList.Nodup :=
  s.sorted.imp fun hab heq => hab.ne (congrArg key heq)

theorem ext_of_mem {s t : SortedBy key} (h : ∀ a, a ∈ s.toList ↔ a ∈ t.toList) : s = t :=
  have hperm := (List.perm_ext_iff_of_nodup s.nodup_toList t.nodup_toList).mpr h
  ext (hperm.eq_of_pairwise (fun _ _ _ _ hab hba => absurd hba hab.asymm) s.sorted t.sorted)

variable [DecidableEq κ]

theorem mem_iff_find? {s : SortedBy key} {a : α} : a ∈ s.toList ↔ s.find? (key a) = some a :=
  ⟨find?_of_mem, mem_of_find?⟩

theorem mem_insert_iff {s : SortedBy key} {a b : α} :
    b ∈ (s.insert a).toList ↔ b = a ∨ b ∈ s.toList ∧ key a ≠ key b := by
  rw [mem_iff_find?, find?_insert, mem_iff_find?]
  by_cases h : key a = key b
  case pos => simp [h, eq_comm]
  case neg =>
    have hne : b ≠ a := fun hb => h (hb ▸ rfl)
    simp [h, hne]

theorem mem_erase_iff {s : SortedBy key} {k : κ} {b : α} :
    b ∈ (s.erase k).toList ↔ b ∈ s.toList ∧ k ≠ key b := by
  rw [mem_iff_find?, find?_erase, mem_iff_find?]
  by_cases h : k = key b <;> simp [h]

theorem mem_of_mem_ofList {l : List α} {b : α} (h : b ∈ (ofList l : SortedBy key).toList) : b ∈ l := by
  have hfold (l : List α) (s : SortedBy key) (h : b ∈ (l.foldl (fun s a => s.insert a) s).toList) :
      b ∈ s.toList ∨ b ∈ l := by
    induction l generalizing s
    case nil => exact .inl h
    case cons a l ih =>
      obtain h | h := ih (s.insert a) h
      · exact (mem_insert_iff.mp h).elim (fun h => .inr (h ▸ List.mem_cons_self)) fun h => .inl h.1
      · exact .inr (List.mem_cons_of_mem a h)
  exact (hfold l empty h).elim (fun h => absurd h List.not_mem_nil) id

theorem eq_of_mem {s : SortedBy key} {a b : α} (ha : a ∈ s.toList) (hb : b ∈ s.toList)
    (h : key a = key b) : a = b := by
  have := find?_of_mem ha
  rw [h, find?_of_mem hb] at this
  exact (Option.some.inj this).symm

end SortedBy

namespace Row

theorem eq_node_of_key {row : Row} {id : NodeId} (h : row.key = .node id) :
    ∃ n : Node, row = .node n ∧ n.id = id := by
  cases row
  case node n => exact ⟨n, rfl, Key.node.inj h⟩
  case replica r =>
    rw [key] at h
    split at h <;> cases h
  all_goals cases h

theorem selects_of_mem_finders {row : Row} {finder : Finder} (h : finder ∈ row.finders) :
    finder.selects row := by
  cases row
  case node n =>
    rw [finders] at h
    split at h
    case isTrue => simp_all [Finder.selects, Finder.key?, key]
    case isFalse =>
      obtain rfl | rfl : finder = .node n.id ∨ finder = .nodeNamed n.parent n.name := by simpa using h
      · simp [Finder.selects, Finder.key?, key]
      · simp_all [Finder.selects, Node.isEntryOf]
  all_goals simp_all [finders, Finder.selects, Finder.key?, key]

theorem mem_finders_of_selects {row : Row} {finder : Finder} (h : finder.selects row) :
    finder ∈ row.finders := by
  cases row
  case node n =>
    cases finder
    case nodeNamed parent name =>
      obtain ⟨⟨hbelow, rfl⟩, rfl⟩ : (¬n.isRoot ∧ n.parent = parent) ∧ n.name = name := by
        simpa [Finder.selects, Node.isEntryOf] using h
      simp [finders, hbelow]
    case node id =>
      obtain rfl : id = n.id := by simpa [Finder.selects, Finder.key?, key] using h
      simp only [finders]
      split <;> simp
    all_goals simp [Finder.selects, Finder.key?, key] at h
  case replica r =>
    cases finder <;> simp [Finder.selects, Finder.key?, key] at h <;> split at h <;> cases h
  all_goals cases finder <;> simp_all [Finder.selects, Finder.key?, key, finders]

theorem mem_finders_iff {row : Row} {finder : Finder} : finder ∈ row.finders ↔ finder.selects row :=
  ⟨selects_of_mem_finders, mem_finders_of_selects⟩

theorem lists_iff {row : Row} {finder : Finder} :
    finder.lists row ↔ row.listFinder? = some finder := by
  cases row
  case node n => cases finder <;> simp [Finder.lists, listFinder?, Node.isEntryOf]
  case replica r => cases hr : r.underConstruction <;> cases finder <;> simp [Finder.lists, listFinder?, hr]
  all_goals cases finder <;> simp [Finder.lists, listFinder?]

end Row

theorem Rows.isEntryOf_iff {n : Node} {dir : NodeId} :
    n.isEntryOf dir ↔ ¬n.isRoot ∧ n.parent = dir := by
  simp [Node.isEntryOf]

namespace Finder

-- A named entry is a node other than the root.
theorem selects_nodeNamed {parent : NodeId} {name : String} {row : Row}
    (h : (nodeNamed parent name).selects row) :
    ∃ n : Node, row = .node n ∧ n.isEntryOf parent ∧ n.name = name := by
  cases row
  case node n =>
    have : n.isEntryOf parent = true ∧ n.name = name := by simpa [selects] using h
    exact ⟨n, rfl, this⟩
  all_goals simp [selects] at h

theorem selects_iff_of_key {finder : Finder} {key : Key} {row : Row} (hkey : finder.key? = some key) :
    finder.selects row ↔ row.key = key := by
  cases finder <;> simp_all [selects, key?, eq_comm]

theorem key_of_selects {finder : Finder} {key : Key} {row : Row} (hkey : finder.key? = some key)
    (h : finder.selects row) : row.key = key :=
  (selects_iff_of_key hkey).mp h

end Finder

-- Entries of one name in one directory.
def Row.isNamesake : Row → Row → Bool
  | .node m, .node n => !m.isRoot && !n.isRoot && m.parent = n.parent && m.name = n.name
  | _, _ => false

theorem Row.isNamesake_iff {r r' : Row} : r.isNamesake r' ↔ ∃ m n : Node, r = .node m ∧
    r' = .node n ∧ ¬m.isRoot ∧ ¬n.isRoot ∧ m.parent = n.parent ∧ m.name = n.name := by
  cases r <;> cases r' <;> simp [isNamesake, and_assoc]

-- No directory has two entries of one name.
def NamesApart (known : Key → Option Row) : Prop :=
  ∀ {k l : Key} {r r' : Row}, known k = some r → known l = some r' → r.isNamesake r' → k = l

-- Then no two rows answer one lookup.
theorem NamesApart.key_eq {known : Key → Option Row} {finder : Finder} {k l : Key} {row row' : Row}
    (h : NamesApart known) (hkeyed : ∀ key row, known key = some row → row.key = key)
    (hrow : known k = some row) (hrow' : known l = some row') (hsel : finder.selects row)
    (hsel' : finder.selects row') : k = l := by
  cases hkey : finder.key?
  case some key =>
    rw [← hkeyed k row hrow, ← hkeyed l row' hrow']
    exact (Finder.key_of_selects hkey hsel).trans (Finder.key_of_selects hkey hsel').symm
  case none =>
    cases finder
    case nodeNamed parent name =>
      obtain ⟨m, rfl, hentry, hname⟩ := Finder.selects_nodeNamed hsel
      obtain ⟨n, rfl, hentry', hname'⟩ := Finder.selects_nodeNamed hsel'
      obtain ⟨hbelow, hparent⟩ := Rows.isEntryOf_iff.mp hentry
      obtain ⟨hbelow', hparent'⟩ := Rows.isEntryOf_iff.mp hentry'
      exact h hrow hrow' (Row.isNamesake_iff.mpr ⟨m, n, rfl, rfl, hbelow, hbelow',
        hparent.trans hparent'.symm, hname.trans hname'.symm⟩)
    all_goals simp [Finder.selects, Finder.key?] at hsel hkey

namespace Rows

-- The rows after a change.
def apply (rows : Rows) : Change → Rows
  | .upsert row => rows.insert row
  | .remove key => rows.erase key

theorem lookup_eq_none_iff {rows : Rows} {finder : Finder} :
    rows.lookup finder = none ↔ ∀ row ∈ rows.toList, finder.selects row = false := by
  simp [lookup]

theorem lookup_of_key? {rows : Rows} {finder : Finder} {key : Key} (h : finder.key? = some key) :
    rows.lookup finder = rows.find? key := by
  refine congrArg (rows.toList.find? ·) (funext fun row => ?_)
  cases finder <;> simp_all [Finder.selects, Finder.key?, eq_comm]

theorem mem_of_lookup {rows : Rows} {finder : Finder} {row : Row}
    (h : rows.lookup finder = some row) : row ∈ rows.toList ∧ finder.selects row :=
  ⟨List.mem_of_find?_eq_some h, List.find?_some h⟩

theorem first_of_lookup {rows : Rows} {finder : Finder} {row r : Row}
    (h : rows.lookup finder = some row) (hr : r ∈ rows.toList) (hsel : finder.selects r) :
    r = row ∨ Ranked.Before row.key r.key := by
  have ⟨_, before, after, heq, hbefore⟩ := List.find?_eq_some_iff_append.mp h
  have hsorted := rows.sorted
  rw [heq] at hr hsorted
  obtain hr | hr := List.mem_append.mp hr
  · exact absurd hsel (by simpa using hbefore r hr)
  · have hafter := (List.pairwise_cons.mp (List.pairwise_append.mp hsorted).2.1).1
    exact (List.mem_cons.mp hr).imp_right (hafter r)

-- Of the rows that it selects, a lookup finds the first one.
theorem lookup_eq_some_iff {rows : Rows} {finder : Finder} {row : Row} :
    rows.lookup finder = some row ↔ row ∈ rows.toList ∧ finder.selects row ∧
      ∀ r ∈ rows.toList, finder.selects r → r = row ∨ Ranked.Before row.key r.key := by
  constructor
  case mp =>
    intro h
    have ⟨hmem, hsel⟩ := mem_of_lookup h
    exact ⟨hmem, hsel, fun r hr => first_of_lookup h hr⟩
  case mpr =>
    rintro ⟨hmem, hsel, hfirst⟩
    cases h : rows.lookup finder
    case none => exact absurd hsel (by simp [lookup_eq_none_iff.mp h row hmem])
    case some found =>
      have ⟨hmem', hsel'⟩ := mem_of_lookup h
      obtain rfl | hlt := hfirst found hmem' hsel'
      · rfl
      · obtain rfl | hgt := first_of_lookup h hmem hsel
        · rfl
        · exact absurd hgt hlt.asymm

theorem namesApart_iff {rows : Rows} : NamesApart rows.find? ↔
    ∀ r ∈ rows.toList, ∀ r' ∈ rows.toList, r.isNamesake r' → r = r' := by
  constructor
  case mp =>
    intro h r hr r' hr' hsame
    exact SortedBy.eq_of_mem hr hr' (h (SortedBy.find?_of_mem hr) (SortedBy.find?_of_mem hr') hsame)
  case mpr =>
    intro h k l r r' hr hr' hsame
    cases h r (SortedBy.mem_of_find? hr) r' (SortedBy.mem_of_find? hr') hsame
    exact (SortedBy.key_of_find? hr).symm.trans (SortedBy.key_of_find? hr')

instance {rows : Rows} : Decidable (NamesApart rows.find?) :=
  decidable_of_iff _ namesApart_iff.symm

theorem lookup_of_selects {rows : Rows} {finder : Finder} {row : Row} (h : NamesApart rows.find?)
    (hrow : row ∈ rows.toList) (hsel : finder.selects row) : rows.lookup finder = some row := by
  cases hfound : rows.lookup finder
  case none => exact absurd hsel (by simp [lookup_eq_none_iff.mp hfound row hrow])
  case some found =>
    obtain ⟨hfmem, hfsel⟩ := mem_of_lookup hfound
    have hkey := h.key_eq (fun _ _ => SortedBy.key_of_find?) (SortedBy.find?_of_mem hfmem)
      (SortedBy.find?_of_mem hrow) hfsel hsel
    rw [SortedBy.eq_of_mem hfmem hrow hkey]

theorem mem_lookupList_iff {rows : Rows} {finder : Finder} {row : Row} :
    row ∈ rows.lookupList finder ↔ row ∈ rows.toList ∧ finder.lists row :=
  List.mem_filter

end Rows

end NamespaceService
