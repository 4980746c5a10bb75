import NamespaceService.Proofs.Transaction.Answers

namespace NamespaceService

namespace Context

variable {c c' : Context} {rows : Rows} {row : Row} {finder : Finder} {kind : LockKind} {key : Key}
  {found : List Row}

-- It makes no difference that the answer is put down before the row it names.
theorem learn_some :
    c.learn finder (some row) = (c.remember row).setSingle finder (some row.key) := by
  refine Context.ext rfl rfl rfl (funext fun f => ?_) rfl rfl rfl rfl
  rw [learn, remember_singles, setSingle_singles, setSingle_singles, remember_singles, Option.map_some]
  split
  case isTrue => split <;> rfl
  case isFalse => rfl

-- What the context knows is true of the rows.
structure Reflects (rows : Rows) (c : Context) : Prop where
  row {key : Key} {row : Row} : c.rows key = some row → rows.find? key = some row
  single {finder : Finder} {key : Key} : c.singles finder = some (some key) →
    ∃ row, rows.lookup finder = some row ∧ row.key = key ∧ c.rows key = some row
  list {finder : Finder} {keys : List Key} : c.lists finder = some keys →
    keys = (rows.lookupList finder).map Row.key ∧
      ∀ row ∈ rows.lookupList finder, c.rows row.key = some row

namespace Reflects

theorem new (rows : Rows) (tx : TxId) : (Context.new tx).Reflects rows where
  row := nofun
  single := nofun
  list := nofun

theorem of_eq (h : c.Reflects rows) (hr : c'.rows = c.rows) (hs : c'.singles = c.singles)
    (hl : c'.lists = c.lists) : c'.Reflects rows where
  row hkey := h.row (hr ▸ hkey)
  single hkey := hr ▸ h.single (hs ▸ hkey)
  list hkeys := hr ▸ h.list (hl ▸ hkeys)

theorem remember_row {first : Row} (h : c.Reflects rows) (hrow : row ∈ rows.toList)
    (hknown : c.rows key = some first) : (c.remember row).rows key = some first := by
  rw [remember_rows]
  split
  case isFalse => exact hknown
  case isTrue heq =>
    rw [← SortedBy.find?_of_mem hrow, ← heq]
    exact h.row hknown

theorem remember (h : c.Reflects rows) (hnames : NamesApart rows.find?) (hrow : row ∈ rows.toList) :
    (c.remember row).Reflects rows where
  row {key first} hkey := by
    obtain ⟨rfl, rfl⟩ | ⟨-, hkey⟩ := row_of_remember hkey
    · exact SortedBy.find?_of_mem hrow
    · exact h.row hkey
  single {finder key} hkey := by
    obtain hkey | ⟨hmem, hkey⟩ := single_of_remember hkey
    · obtain ⟨first, hlookup, hfirst, hknown⟩ := h.single hkey
      exact ⟨first, hlookup, hfirst, h.remember_row hrow hknown⟩
    · cases hkey
      refine ⟨row, Rows.lookup_of_selects hnames hrow (Row.selects_of_mem_finders hmem), rfl, ?_⟩
      exact (remember_rows _).trans (if_pos rfl)
  list {finder keys} hkeys := by
    obtain ⟨hkeys, hall⟩ := h.list (show c.lists finder = some keys from hkeys)
    exact ⟨hkeys, fun first hfirst => h.remember_row hrow (hall first hfirst)⟩

theorem setSingle (h : c.Reflects rows) {found? : Option Key}
    (hfound : ∀ key, found? = some key → ∃ row, rows.lookup finder = some row ∧ row.key = key ∧
      c.rows key = some row) : (c.setSingle finder found?).Reflects rows where
  row hkey := h.row hkey
  single {f key} hkey := by
    rw [setSingle_singles] at hkey
    split at hkey
    case isFalse => exact h.single hkey
    case isTrue heq =>
      cases hkey
      exact heq ▸ hfound key rfl
  list hkeys := h.list hkeys

theorem learnRow (h : c.Reflects rows) (hnames : NamesApart rows.find?)
    (hlookup : rows.lookup finder = some row) :
    ((c.remember row).setSingle finder (some row.key)).Reflects rows := by
  refine (h.remember hnames (Rows.mem_of_lookup hlookup).1).setSingle fun key hkey => ?_
  cases hkey
  exact ⟨row, hlookup, rfl, (remember_rows _).trans (if_pos rfl)⟩

theorem learnLocked (h : c.Reflects rows) (hnames : NamesApart rows.find?) :
    (c.learnLocked kind finder (rows.lookup finder)).Reflects rows := by
  cases hlookup : rows.lookup finder
  case some row => exact (h.learnRow hnames hlookup).of_eq rfl rfl rfl
  case none =>
    have hnone : (c.setSingle finder none).Reflects rows := h.setSingle (by simp)
    rw [Context.learnLocked]
    split
    case h_1 => exact hnone.of_eq rfl rfl rfl
    case h_2 => exact hnone

theorem learn (h : c.Reflects rows) (hnames : NamesApart rows.find?) :
    (c.learn finder (rows.lookup finder)).Reflects rows := by
  cases hlookup : rows.lookup finder
  case some row => exact learn_some ▸ h.learnRow hnames hlookup
  case none => exact h.setSingle (by simp)

theorem foldl_remember (h : c.Reflects rows) (hnames : NamesApart rows.find?)
    (hmem : ∀ row ∈ found, row ∈ rows.toList) : (found.foldl Context.remember c).Reflects rows ∧
      ∀ row ∈ rows.toList, row ∈ found ∨ c.rows row.key = some row →
        (found.foldl Context.remember c).rows row.key = some row := by
  induction found generalizing c
  case nil => exact ⟨h, fun row _ hrow => hrow.resolve_left List.not_mem_nil⟩
  case cons first found ih =>
    have hfirst := hmem first List.mem_cons_self
    obtain ⟨hreflects, hknown⟩ :=
      ih (h.remember hnames hfirst) fun row hrow => hmem row (List.mem_cons_of_mem _ hrow)
    refine ⟨hreflects, fun row hrow hfound => hknown row hrow ?_⟩
    obtain hfound | hfound := hfound
    · obtain rfl | hfound := List.mem_cons.mp hfound
      · exact .inr ((remember_rows _).trans (if_pos rfl))
      · exact .inl hfound
    · exact .inr (h.remember_row hfirst hfound)

theorem learnList (h : c.Reflects rows) (hnames : NamesApart rows.find?) :
    (c.learnList finder (rows.lookupList finder)).Reflects rows := by
  have hmem : ∀ row ∈ rows.lookupList finder, row ∈ rows.toList :=
    fun row hrow => (Rows.mem_lookupList_iff.mp hrow).1
  obtain ⟨hreflects, hknown⟩ := h.foldl_remember hnames hmem
  refine ⟨hreflects.row, hreflects.single, fun {f keys} hkeys => ?_⟩
  change (if f = finder then some ((rows.lookupList finder).map Row.key) else _) = some keys at hkeys
  split at hkeys
  case isFalse => exact hreflects.list hkeys
  case isTrue heq =>
    cases hkeys
    subst heq
    exact ⟨rfl, fun row hrow => hknown row (hmem row hrow) (.inl hrow)⟩

end Reflects

-- Locks make no difference to what is learned of a list.
theorem exists_foldl_remember_lock (c : Context) (kind : LockKind) (locks : LockSet)
    (found : List Row) : ∃ locks',
      found.foldl (fun c row => (c.remember row).lock row.key kind) { c with locks } =
        { found.foldl remember c with locks := locks' } := by
  induction found generalizing c locks
  case nil => exact ⟨locks, rfl⟩
  case cons row found ih => exact ih (c.remember row) (locks.record row.key kind)

theorem exists_learnLockedList (c : Context) (kind : LockKind) (finder : Finder) (found : List Row) :
    ∃ locks, c.learnLockedList kind finder found = { c.learnList finder found with locks } := by
  obtain ⟨locks, hlocks⟩ := exists_foldl_remember_lock c kind c.locks found
  exact ⟨locks, congrArg (Context.setList · finder (found.map Row.key)) hlocks⟩

namespace Reflects

theorem learnLockedList (h : c.Reflects rows) (hnames : NamesApart rows.find?) :
    (c.learnLockedList kind finder (rows.lookupList finder)).Reflects rows := by
  obtain ⟨locks, hlocks⟩ := exists_learnLockedList c kind finder (rows.lookupList finder)
  rw [hlocks]
  exact (h.learnList hnames).of_eq rfl rfl rfl

-- An answer that is known is the right one.
theorem lockedAnswer? (h : c.Reflects rows) {found : Option Row}
    (hfound : c.lockedAnswer? kind finder = some found) : found = rows.lookup finder := by
  obtain ⟨key, -, hkey, rfl⟩ | ⟨key, row, -, hkey, hrow, rfl⟩ := lockedAnswer?_cases hfound
  · obtain ⟨row, hlookup, -, hknown⟩ := h.single hkey
    rw [hlookup, hknown]
  · rw [Rows.lookup_of_key? hkey, h.row hrow]

theorem knownList? (h : c.Reflects rows) (hfound : c.knownList? finder = some found) :
    found = rows.lookupList finder := by
  obtain ⟨keys, hkeys, rfl⟩ := Option.map_eq_some_iff.mp hfound
  obtain ⟨rfl, hknown⟩ := h.list hkeys
  rw [Context.rowsOf, List.filterMap_map]
  exact (List.filterMap_congr hknown).trans List.filterMap_some

theorem lockedList? (h : c.Reflects rows) (hfound : c.lockedList? kind finder = some found) :
    found = rows.lookupList finder :=
  h.knownList? (knownList?_of_lockedList? hfound)

end Reflects

-- Only a lookup that finds nothing puts down that there is nothing.
theorem remember_absent {f : Finder} (h : (c.remember row).singles f = some none) :
    c.singles f = some none :=
  (single_of_remember h).resolve_right fun ⟨_, hnone⟩ => by cases hnone

theorem foldl_remember_absent {f : Finder} (h : (found.foldl remember c).singles f = some none) :
    c.singles f = some none := by
  induction found generalizing c
  case nil => exact h
  case cons row found ih => exact remember_absent (ih h)

theorem learnRow_absent {f : Finder}
    (h : ((c.remember row).setSingle finder (some row.key)).singles f = some none) :
    c.singles f = some none := by
  rw [setSingle_singles] at h
  split at h
  case isTrue => cases h
  case isFalse => exact remember_absent h

theorem setSingle_absent {f : Finder} (h : (c.setSingle finder none).singles f = some none) :
    c.singles f = some none ∨ f = finder := by
  rw [setSingle_singles] at h
  split at h
  case isTrue heq => exact .inr heq
  case isFalse => exact .inl h

-- The lock phase goes on, and what is known to be missing is missing.
structure Faithful (rows : Rows) (c : Context) : Prop extends c.Reflects rows where
  unsealed : c.sealed = false
  absent {finder : Finder} : c.singles finder = some none → rows.lookup finder = none

namespace Faithful

theorem new (rows : Rows) (tx : TxId) : (Context.new tx).Faithful rows where
  toReflects := .new rows tx
  unsealed := rfl
  absent := nofun

theorem learnLocked (h : c.Faithful rows) (hnames : NamesApart rows.find?) :
    (c.learnLocked kind finder (rows.lookup finder)).Faithful rows where
  toReflects := h.toReflects.learnLocked hnames
  unsealed := Grows.learnLocked.sealed.trans h.unsealed
  absent {f} hnone := by
    cases hlookup : rows.lookup finder
    case some row =>
      rw [hlookup] at hnone
      exact h.absent (learnRow_absent hnone)
    case none =>
      rw [hlookup, Context.learnLocked] at hnone
      obtain hnone | rfl : c.singles f = some none ∨ f = finder := by
        split at hnone <;> exact setSingle_absent hnone
      · exact h.absent hnone
      · exact hlookup

theorem learn (h : c.Faithful rows) (hnames : NamesApart rows.find?) :
    (c.learn finder (rows.lookup finder)).Faithful rows where
  toReflects := h.toReflects.learn hnames
  unsealed := (Edits.learn h.unsealed).sealed.trans h.unsealed
  absent {f} hnone := by
    cases hlookup : rows.lookup finder
    case some row =>
      rw [hlookup, learn_some] at hnone
      exact h.absent (learnRow_absent hnone)
    case none =>
      rw [hlookup] at hnone
      obtain hnone | rfl := setSingle_absent hnone
      · exact h.absent hnone
      · exact hlookup

theorem learnList (h : c.Faithful rows) (hnames : NamesApart rows.find?) :
    (c.learnList finder (rows.lookupList finder)).Faithful rows where
  toReflects := h.toReflects.learnList hnames
  unsealed := (Edits.learnList h.unsealed).1.sealed.trans h.unsealed
  absent hnone := h.absent (foldl_remember_absent hnone)

theorem learnLockedList (h : c.Faithful rows) (hnames : NamesApart rows.find?) :
    (c.learnLockedList kind finder (rows.lookupList finder)).Faithful rows where
  toReflects := h.toReflects.learnLockedList hnames
  unsealed := Grows.learnLockedList.sealed.trans h.unsealed
  absent {f} hnone := by
    obtain ⟨locks, hlocks⟩ := exists_learnLockedList c kind finder (rows.lookupList finder)
    rw [hlocks] at hnone
    exact h.absent (foldl_remember_absent hnone)

theorem knownSingle? (h : c.Faithful rows) {found : Option Row}
    (hfound : c.knownSingle? finder = some found) : found = rows.lookup finder := by
  obtain ⟨key?, hkey, rfl⟩ := Option.map_eq_some_iff.mp hfound
  cases key?
  case none => exact (h.absent hkey).symm
  case some key =>
    obtain ⟨row, hlookup, -, hknown⟩ := h.single hkey
    exact hknown.trans hlookup.symm

theorem knownAnswer? (h : c.Faithful rows) {found : Option Row}
    (hfound : c.knownAnswer? finder = some found) : found = rows.lookup finder := by
  obtain hsingle | ⟨key, row, hkey, hrow, rfl⟩ := knownAnswer?_cases hfound
  · exact h.knownSingle? hsingle
  · rw [Rows.lookup_of_key? hkey, h.row hrow]

end Faithful

end Context

end NamespaceService
