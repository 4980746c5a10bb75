import Mathlib.Data.List.Nodup
import NamespaceService.Proofs.Transaction.Reflection

namespace NamespaceService

open Function

variable {c c' : Context} {rows : Rows} {row : Row} {finder : Finder} {kind : LockKind}
  {key key' : Key} {known : Key → Option Row}

-- The row that is found is the one that answers the lookup.
def Finds (known : Key → Option Row) (finder : Finder) (found : Option Row) : Prop :=
  ∀ row, found = some row ↔ known row.key = some row ∧ finder.selects row

-- The rows of a list are found once each, in some order.
def Lists (known : Key → Option Row) (finder : Finder) (found : List Row) : Prop :=
  found.Nodup ∧ ∀ row, row ∈ found ↔ known row.key = some row ∧ finder.lists row

namespace NamesApart

theorem mono {known' : Key → Option Row} (h : NamesApart known')
    (hsub : ∀ key row, known key = some row → known' key = some row) : NamesApart known :=
  fun hk hl hsame => h (hsub _ _ hk) (hsub _ _ hl) hsame

theorem eq_of_any (h : NamesApart known) (hkeyed : ∀ key row, known key = some row → row.key = key)
    (hkey : (known key).any finder.selects) (hkey' : (known key').any finder.selects) :
    key = key' := by
  obtain ⟨row, hrow, hsel⟩ := Option.any_eq_true _ _ |>.mp hkey
  obtain ⟨row', hrow', hsel'⟩ := Option.any_eq_true _ _ |>.mp hkey'
  exact h.key_eq hkeyed hrow hrow' hsel hsel'

end NamesApart

namespace Context

theorem remove_rows : (c.remove key).rows = update c.rows key none := by
  funext k
  rw [update_apply, remove]
  split
  case h_1 => rfl
  case h_2 hnone =>
    split
    case isTrue heq => exact heq ▸ hnone
    case isFalse => rfl

theorem rows_of_remove (h : (c.remove key).rows key' = some row) : c.rows key' = some row := by
  rw [remove_rows, update_apply] at h
  split at h
  case isTrue => cases h
  case isFalse => exact h

theorem Keyed.remove (h : c.Keyed) : (c.remove key).Keyed :=
  fun k r hr => h k r (rows_of_remove hr)

theorem upsert_rows_eq : (c.upsert row).rows = update c.rows row.key (some row) :=
  funext fun k => (upsert_rows k).trans (update_apply _ _ _ k).symm

theorem forgetAnswers_singles {old : Row} : (c.forgetAnswers old).singles finder =
    if finder.selects old then some none else c.singles finder :=
  if_congr Row.mem_finders_iff rfl rfl

theorem offerAnswers_singles : (c.offerAnswers row).singles finder =
    if finder.selects row then some (some row.key) else c.singles finder :=
  if_congr Row.mem_finders_iff rfl rfl

theorem changeList_lists {change : List Key → List Key} :
    (c.changeList row.listFinder? change).lists finder =
      if finder.lists row then (c.lists finder).map change else c.lists finder :=
  if_congr (eq_comm.trans Row.lists_iff.symm) rfl rfl

theorem remove_singles : (c.remove key).singles finder =
    if (c.rows key).any finder.selects then some none else c.singles finder := by
  rw [remove]
  split
  case h_1 old hold => simpa [hold] using forgetAnswers_singles
  case h_2 hnone => simp [hnone]

theorem remove_lists : (c.remove key).lists finder = (c.lists finder).map (without key) :=
  rfl

-- The new row comes to answer what it is looked up by, and the old one no longer does.
theorem upsert_singles_eq : (c.upsert row).singles finder =
    if finder.selects row then some (some row.key)
    else if (c.rows row.key).any finder.selects then some none else c.singles finder := by
  rw [upsert]
  split
  case h_1 old hold =>
    rw [hold]
    exact offerAnswers_singles.trans (if_congr Iff.rfl rfl forgetAnswers_singles)
  case h_2 hnone =>
    rw [hnone]
    exact offerAnswers_singles

-- A list as it was read, but for the old row of the key.
def kept (c : Context) (key : Key) (finder : Finder) : Option (List Key) :=
  if (c.rows key).any finder.lists then (c.lists finder).map (without key) else c.lists finder

theorem upsert_lists : (c.upsert row).lists finder =
    if finder.lists row then (c.kept row.key finder).map (· ++ [row.key])
    else c.kept row.key finder := by
  rw [upsert, kept]
  split
  case h_1 old hold =>
    rw [hold]
    exact changeList_lists.trans
      (if_congr Iff.rfl (congrArg (Option.map _) changeList_lists) changeList_lists)
  case h_2 hnone =>
    rw [hnone]
    exact changeList_lists

-- Every answer fits the rows as they are known with the changes made.
structure Consistent (c : Context) : Prop where
  keyed : c.Keyed
  single {finder : Finder} {key? : Option Key} {key : Key} : c.singles finder = some key? →
    (key? = some key ↔ (c.rows key).any finder.selects)
  list {finder : Finder} {keys : List Key} : c.lists finder = some keys →
    keys.Nodup ∧ ∀ key, key ∈ keys ↔ (c.rows key).any finder.lists

theorem Faithful.consistent (h : c.Faithful rows) (hnames : NamesApart rows.find?) :
    c.endLockPhase.Consistent where
  keyed key row hrow := SortedBy.key_of_find? (h.row hrow)
  single {finder key? key} hkey := by
    constructor
    case mp =>
      rintro rfl
      obtain ⟨row, hlookup, -, hrow⟩ := h.single hkey
      exact Option.any_eq_true _ _ |>.mpr ⟨row, hrow, (Rows.mem_of_lookup hlookup).2⟩
    case mpr =>
      intro hany
      obtain ⟨row, hrow, hsel⟩ := Option.any_eq_true _ _ |>.mp hany
      have hfound := h.row hrow
      have hlookup := Rows.lookup_of_selects hnames (SortedBy.mem_of_find? hfound) hsel
      cases key?
      case none => cases (h.absent hkey).symm.trans hlookup
      case some first =>
        obtain ⟨row', hlookup', rfl, -⟩ := h.single hkey
        cases hlookup.symm.trans hlookup'
        exact congrArg some (SortedBy.key_of_find? hfound)
  list {finder keys} hkeys := by
    obtain ⟨rfl, hknown⟩ := h.list hkeys
    refine ⟨List.pairwise_map.mpr (Rows.lookupList_keys ..), fun key => ?_⟩
    rw [List.mem_map, Option.any_eq_true]
    constructor
    case mp =>
      rintro ⟨row, hrow, rfl⟩
      exact ⟨row, hknown row hrow, (Rows.mem_lookupList_iff.mp hrow).2⟩
    case mpr =>
      rintro ⟨row, hrow, hlists⟩
      have hfound := h.row hrow
      exact ⟨row, Rows.mem_lookupList_iff.mpr ⟨SortedBy.mem_of_find? hfound, hlists⟩,
        SortedBy.key_of_find? hfound⟩

namespace Consistent

variable {new? : Option Row}

-- A key gets a new row or none. Lookups of the new row come to find it, and lookups that only the
-- old row answered find nothing.
theorem single_of_update (h : c.Consistent) (hrows : c'.rows = update c.rows key new?)
    (hkeyed : c'.Keyed) (hnames : NamesApart c.rows) (hnames' : NamesApart c'.rows)
    {key? : Option Key} (hkey : (if new?.any finder.selects then some (some key)
      else if (c.rows key).any finder.selects then some none else c.singles finder) = some key?) :
    key? = some key' ↔ (c'.rows key').any finder.selects := by
  have hself : c'.rows key = new? := by simp [hrows]
  have hother (hne : key' ≠ key) : c'.rows key' = c.rows key' := by simp [hrows, hne]
  split at hkey
  case isTrue hnew =>
    cases hkey
    constructor
    case mp =>
      rintro ⟨rfl⟩
      exact hself ▸ hnew
    case mpr => exact fun hany => congrArg some (hnames'.eq_of_any hkeyed (hself.symm ▸ hnew) hany)
  case isFalse hnew =>
    by_cases hne : key' = key
    case pos =>
      subst hne
      rw [hself]
      split at hkey
      case isTrue =>
        cases hkey
        simpa using hnew
      case isFalse hold => rw [h.single hkey, iff_false_intro hold, iff_false_intro hnew]
    case neg =>
      rw [hother hne]
      split at hkey
      case isTrue hold =>
        cases hkey
        simpa using fun hany => hne (hnames.eq_of_any h.keyed hany hold)
      case isFalse => exact h.single hkey

theorem remove (h : c.Consistent) (hnames : NamesApart c.rows) : (c.remove key).Consistent where
  keyed := h.keyed.remove
  single hkey := h.single_of_update remove_rows h.keyed.remove hnames
    (hnames.mono fun _ _ => rows_of_remove) (remove_singles.symm.trans hkey)
  list {finder keys} hkeys := by
    rw [remove_lists] at hkeys
    obtain ⟨before, hbefore, rfl⟩ := Option.map_eq_some_iff.mp hkeys
    obtain ⟨hnodup, hmem⟩ := h.list hbefore
    refine ⟨hnodup.filter _, fun k => ?_⟩
    by_cases hk : k = key <;> simp [without, remove_rows, hk, hmem]

-- The old row leaves the list that it belongs to, and it is in no other.
theorem nodup_kept (h : c.Consistent) {keys : List Key} (hkept : c.kept key finder = some keys) :
    keys.Nodup ∧ ∀ k, k ∈ keys ↔ k ≠ key ∧ (c.rows k).any finder.lists := by
  rw [kept] at hkept
  split at hkept
  case isTrue =>
    obtain ⟨before, hbefore, rfl⟩ := Option.map_eq_some_iff.mp hkept
    obtain ⟨hnodup, hmem⟩ := h.list hbefore
    exact ⟨hnodup.filter _, by simp [without, hmem, and_comm]⟩
  case isFalse hold =>
    obtain ⟨hnodup, hmem⟩ := h.list hkept
    refine ⟨hnodup, fun k => (hmem k).trans (iff_and_self.mpr ?_)⟩
    rintro hany rfl
    exact hold hany

theorem upsert (h : c.Consistent) (hnames : NamesApart c.rows)
    (hnames' : NamesApart (c.upsert row).rows) : (c.upsert row).Consistent where
  keyed := h.keyed.upsert
  single hkey :=
    h.single_of_update upsert_rows_eq h.keyed.upsert hnames hnames' (upsert_singles_eq.symm.trans hkey)
  list {finder keys} hkeys := by
    rw [upsert_lists] at hkeys
    rw [upsert_rows_eq]
    split at hkeys
    case isTrue hlists =>
      obtain ⟨kept, hkept, rfl⟩ := Option.map_eq_some_iff.mp hkeys
      obtain ⟨hnodup, hmem⟩ := h.nodup_kept hkept
      refine ⟨List.nodup_append.mpr ⟨hnodup, List.nodup_singleton _, ?_⟩, fun k => ?_⟩
      · simpa [hmem] using fun k hk _ => hk
      · by_cases hk : k = row.key <;> simp [hk, hmem, hlists]
    case isFalse hlists =>
      obtain ⟨hnodup, hmem⟩ := h.nodup_kept hkeys
      refine ⟨hnodup, fun k => ?_⟩
      by_cases hk : k = row.key <;> simp [hk, hmem, hlists]

-- A file that moves leaves its directory and its old name.
example :
    let moved : Row := .node ⟨⟨2⟩, .root, "g", .file, []⟩
    let c := ((Context.new 1).learnList (.children ⟨1⟩)
      [.node ⟨⟨2⟩, ⟨1⟩, "f", .file, []⟩]).upsert moved
    c.knownList? (.children ⟨1⟩) = some [] ∧ c.knownSingle? (.nodeNamed ⟨1⟩ "f") = some none ∧
      c.knownSingle? (.nodeNamed .root "g") = some (some moved) := by
  decide

theorem finds_single (h : c.Consistent) {key? : Option Key} (hkey : c.singles finder = some key?) :
    Finds c.rows finder (key?.bind c.rows) := by
  intro row
  rw [Option.bind_eq_some_iff]
  constructor
  case mp =>
    rintro ⟨key, rfl, hrow⟩
    have hany := (h.single hkey).mp rfl
    rw [hrow] at hany
    exact ⟨h.keyed key row hrow ▸ hrow, hany⟩
  case mpr =>
    rintro ⟨hrow, hsel⟩
    exact ⟨row.key, (h.single hkey).mpr (by simpa [hrow] using hsel), hrow⟩

theorem finds_row (h : c.Consistent) (hkey : finder.key? = some key) :
    Finds c.rows finder (c.rows key) := by
  intro row
  rw [Finder.selects_iff_of_key hkey]
  constructor
  case mp => exact fun hrow => ⟨h.keyed key row hrow ▸ hrow, h.keyed key row hrow⟩
  case mpr =>
    rintro ⟨hrow, rfl⟩
    exact hrow

theorem knownSingle? (h : c.Consistent) {found : Option Row}
    (hfound : c.knownSingle? finder = some found) : Finds c.rows finder found := by
  obtain ⟨key?, hkey, rfl⟩ := Option.map_eq_some_iff.mp hfound
  exact h.finds_single hkey

theorem knownAnswer? (h : c.Consistent) {found : Option Row}
    (hfound : c.knownAnswer? finder = some found) : Finds c.rows finder found := by
  obtain hsingle | ⟨key, row, hkey, hrow, rfl⟩ := knownAnswer?_cases hfound
  · exact h.knownSingle? hsingle
  · exact hrow ▸ h.finds_row hkey

theorem lockedAnswer? (h : c.Consistent) {found : Option Row}
    (hfound : c.lockedAnswer? kind finder = some found) : Finds c.rows finder found := by
  obtain ⟨key, -, hkey, rfl⟩ | ⟨key, row, -, hkey, hrow, rfl⟩ := lockedAnswer?_cases hfound
  · exact h.finds_single hkey
  · exact hrow ▸ h.finds_row hkey

theorem knownList? (h : c.Consistent) {found : List Row}
    (hfound : c.knownList? finder = some found) : Lists c.rows finder found := by
  obtain ⟨keys, hkeys, rfl⟩ := Option.map_eq_some_iff.mp hfound
  obtain ⟨hnodup, hmem⟩ := h.list hkeys
  constructor
  case left =>
    refine List.Nodup.filterMap (fun k l row hk hl => ?_) hnodup
    exact (h.keyed k row hk).symm.trans (h.keyed l row hl)
  case right =>
    intro row
    rw [rowsOf, List.mem_filterMap]
    constructor
    case mp =>
      rintro ⟨key, hkey, hrow⟩
      have hany := (hmem key).mp hkey
      rw [hrow] at hany
      exact ⟨h.keyed key row hrow ▸ hrow, hany⟩
    case mpr =>
      rintro ⟨hrow, hlists⟩
      exact ⟨row.key, (hmem row.key).mpr (by simpa [hrow] using hlists), hrow⟩

theorem lockedList? (h : c.Consistent) {found : List Row}
    (hfound : c.lockedList? kind finder = some found) : Lists c.rows finder found :=
  h.knownList? (knownList?_of_lockedList? hfound)

end Consistent

end Context

end NamespaceService
