import NamespaceService.Proofs.Transaction.Lookups

namespace NamespaceService

namespace LockKind

theorem le_refl (kind : LockKind) : kind ≤ kind :=
  Nat.le_refl _

theorem le_trans {a b c : LockKind} (hab : a ≤ b) (hbc : b ≤ c) : a ≤ c :=
  Nat.le_trans hab hbc

theorem le_of_lt {a b : LockKind} (h : ¬a ≤ b) : b ≤ a :=
  Nat.le_of_lt (Nat.lt_of_not_le h)

theorem read_le_iff {kind : LockKind} : .read ≤ kind ↔ kind ≠ .readCommitted := by
  cases kind <;> decide

end LockKind

namespace LockSet

variable {locks : LockSet} {key k : Key} {kind held : LockKind}

theorem holds_iff : locks.holds key kind ↔ ∃ held, locks.kindOf? key = some held ∧ kind ≤ held := by
  rw [holds]
  cases locks.kindOf? key <;> simp

theorem kindOf?_insert : kindOf? (locks.insert (key, held)) k =
    if key = k then some held else locks.kindOf? k := by
  rw [kindOf?, SortedBy.find?_insert]
  split <;> rfl

-- Recording a lock adds to what is held, and takes nothing away.
theorem holds_record_iff :
    (locks.record key held).holds k kind ↔ locks.holds k kind ∨ key = k ∧ kind ≤ held := by
  rw [record]
  split
  case isTrue h =>
    refine ⟨.inl, fun h' => h'.elim id ?_⟩
    rintro ⟨rfl, hle⟩
    obtain ⟨held', hk, hle'⟩ := holds_iff.mp h
    exact holds_iff.mpr ⟨held', hk, LockKind.le_trans hle hle'⟩
  case isFalse h =>
    rw [holds_iff, holds_iff, kindOf?_insert]
    split
    case isTrue hk =>
      subst hk
      constructor
      case mp =>
        rintro ⟨_, heq, hle⟩
        cases heq
        exact .inr ⟨rfl, hle⟩
      case mpr =>
        rintro (⟨held', hk, hle⟩ | ⟨-, hle⟩)
        · have hnot : ¬held ≤ held' := fun hle' => h (holds_iff.mpr ⟨held', hk, hle'⟩)
          exact ⟨held, rfl, LockKind.le_trans hle (LockKind.le_of_lt hnot)⟩
        · exact ⟨held, rfl, hle⟩
    case isFalse hk => simp [hk]

theorem holds_of_le {weaker : LockKind} (h : locks.holds key kind) (hle : weaker ≤ kind) :
    locks.holds key weaker :=
  have ⟨held, hk, hheld⟩ := holds_iff.mp h
  holds_iff.mpr ⟨held, hk, LockKind.le_trans hle hheld⟩

theorem not_holds_empty : ¬holds .empty key kind := by
  simp [holds_iff, kindOf?]

end LockSet

namespace Row

-- Of the lookups that a node answers, the one by its name tells of no other.
theorem eq_of_mem_finders {row : Row} {f finder : Finder}
    (hfinder : finder = .node .root ∨ finder.key? = none) (hkey : f.key? = none)
    (hmem : f ∈ row.finders) (hsel : finder.selects row) : f = finder := by
  cases row
  case node n =>
    rw [finders] at hmem
    split at hmem
    case isTrue hroot =>
      cases List.mem_singleton.mp hmem
      cases hkey
    case isFalse hroot =>
      obtain rfl | rfl : f = .node n.id ∨ f = .nodeNamed n.parent n.name := by simpa using hmem
      · cases hkey
      · cases finder <;> simp_all [Finder.selects, Finder.key?, key, Node.isEntryOf, Node.isRoot]
  all_goals simp_all [finders, Finder.key?]

end Row

namespace Timeline

variable (σ : Timeline) {t₀ t t' τ τ' : Nat} {tx : TxId} {key : Key} {row : Row}

-- The row was in the store at some moment from `t₀` to `t`.
def Seen (t₀ t : Nat) (row : Row) : Prop :=
  ∃ τ, t₀ ≤ τ ∧ τ ≤ t ∧ row ∈ (σ.rows τ).toList

-- By `t`, the transaction has observed the version that the row had at time `τ`.
def Rests (tx : TxId) (t : Nat) (key : Key) (τ : Nat) : Prop :=
  (σ.store t).RestsOn tx key (σ.version τ key)

variable {σ}

theorem Seen.mono (h : σ.Seen t₀ t row) (ht : t ≤ t') : σ.Seen t₀ t' row :=
  have ⟨τ, h₀, hτ, hm⟩ := h
  ⟨τ, h₀, hτ.trans ht, hm⟩

theorem Rests.mono (h : σ.Rests tx t key τ) (ht : t ≤ t') : σ.Rests tx t' key τ :=
  h.later (σ.later ht)

-- Versions only grow, so that an observed version is also one of every later moment.
theorem Rests.after (h : σ.Rests tx t key τ) (hτ : τ ≤ τ') : σ.Rests tx t key τ' :=
  Store.RestsOn.mono h ((σ.later hτ).version_le key)

end Timeline

namespace Context

variable {σ : Timeline} {tx : TxId} {t₀ t t' u u' : Nat} {c c' c'' : Context} {kind : LockKind}
  {finder : Finder} {row : Row}

-- What stays as the lock phase goes on.
structure Grows (c c' : Context) : Prop where
  tx : c'.tx = c.tx
  changes : c'.changes = c.changes
  sealed : c'.sealed = c.sealed
  holds {key : Key} {kind : LockKind} : c.locks.holds key kind → c'.locks.holds key kind

namespace Grows

theorem refl (c : Context) : c.Grows c :=
  ⟨rfl, rfl, rfl, id⟩

theorem trans (h : c.Grows c') (h' : c'.Grows c'') : c.Grows c'' where
  tx := h'.tx.trans h.tx
  changes := h'.changes.trans h.changes
  sealed := h'.sealed.trans h.sealed
  holds hk := h'.holds (h.holds hk)

end Grows

theorem setSingle_singles {key? : Option Key} (f : Finder) :
    (c.setSingle finder key?).singles f = if f = finder then some key? else c.singles f := rfl

theorem remember_rows (key : Key) :
    (c.remember row).rows key = if key = row.key then some row else c.rows key := rfl

theorem remember_singles (f : Finder) : (c.remember row).singles f =
    if f ∈ row.finders then some ((c.singles f).getD (some row.key)) else c.singles f := rfl

theorem remember_origins (key : Key) : (c.remember row).origins key =
    if key = row.key then some ((c.origins key).getD row.owner?) else c.origins key := rfl

-- What is known once a row has been remembered was known before, or it is about that row.
theorem row_of_remember {key : Key} {known : Row} (h : (c.remember row).rows key = some known) :
    known = row ∧ key = row.key ∨ key ≠ row.key ∧ c.rows key = some known := by
  rw [remember_rows] at h
  split at h
  case isTrue heq =>
    cases h
    exact .inl ⟨rfl, heq⟩
  case isFalse hne => exact .inr ⟨hne, h⟩

theorem single_of_remember {f : Finder} {key? : Option Key}
    (h : (c.remember row).singles f = some key?) :
    c.singles f = some key? ∨ f ∈ row.finders ∧ key? = some row.key := by
  rw [remember_singles] at h
  split at h
  case isFalse => exact .inl h
  case isTrue hmem =>
    cases hs : c.singles f
    case none =>
      rw [hs] at h
      exact .inr ⟨hmem, (Option.some.inj h).symm⟩
    case some first =>
      rw [hs] at h
      exact .inl h

theorem origin_of_remember {key : Key} {owner : Option Key}
    (h : (c.remember row).origins key = some owner) :
    c.origins key = some owner ∨ key = row.key ∧ owner = row.owner? := by
  rw [remember_origins] at h
  split at h
  case isFalse => exact .inl h
  case isTrue heq =>
    cases ho : c.origins key
    case none =>
      rw [ho] at h
      exact .inr ⟨heq, (Option.some.inj h).symm⟩
    case some first =>
      rw [ho] at h
      exact .inl h

-- An answer under a lock is the row that an earlier lookup found, or a row that is known by its key.
theorem lockedAnswer?_cases {found : Option Row} (h : c.lockedAnswer? kind finder = some found) :
    (∃ key, c.locks.holds key kind ∧ c.singles finder = some (some key) ∧ found = c.rows key) ∨
      ∃ key row, c.locks.holds key kind ∧ finder.key? = some key ∧ c.rows key = some row ∧
        found = some row := by
  have hlocked (h : (c.lockedRow? kind finder).map some = some found) : ∃ key row,
      c.locks.holds key kind ∧ finder.key? = some key ∧ c.rows key = some row ∧ found = some row := by
    obtain ⟨row, hrow, rfl⟩ := Option.map_eq_some_iff.mp h
    rw [lockedRow?] at hrow
    split at hrow
    case h_2 => cases hrow
    case h_1 key hkey =>
      split at hrow
      case isFalse => cases hrow
      case isTrue hholds => exact ⟨key, row, hholds, hkey, hrow, rfl⟩
  rw [lockedAnswer?] at h
  split at h
  case h_2 => exact .inr (hlocked h)
  case h_1 key hkey =>
    split at h
    case isFalse => exact .inr (hlocked h)
    case isTrue hholds => exact .inl ⟨key, hholds, hkey, (Option.some.inj h).symm⟩

theorem knownAnswer?_cases {found : Option Row} (h : c.knownAnswer? finder = some found) :
    c.knownSingle? finder = some found ∨
      ∃ key row, finder.key? = some key ∧ c.rows key = some row ∧ found = some row := by
  rw [knownAnswer?] at h
  split at h
  case h_1 answer hanswer => exact .inl (h ▸ hanswer)
  case h_2 =>
    obtain ⟨row, hrow, rfl⟩ := Option.map_eq_some_iff.mp h
    obtain ⟨key, hkey, hrow⟩ := Option.bind_eq_some_iff.mp hrow
    exact .inr ⟨key, row, hkey, hrow, rfl⟩

theorem knownList?_of_lockedList? {found : List Row} (h : c.lockedList? kind finder = some found) :
    c.knownList? finder = some found := by
  rw [lockedList?] at h
  split at h
  case h_2 => cases h
  case h_1 keys hkeys =>
    split at h
    case isFalse => cases h
    case isTrue => simpa [knownList?, hkeys] using h

-- The answer to a lookup is a row that was in the store under the same key as a row that the
-- lookup selected.
def Fits (σ : Timeline) (t₀ t : Nat) (finder : Finder) (key : Key) : Prop :=
  ∃ old, σ.Seen t₀ t old ∧ old.key = key ∧ finder.selects old

-- What the context knows was so at moments from `t₀` to `t`, and rests on what was observed by `u`.
structure Tracks (σ : Timeline) (t₀ t u : Nat) (c : Context) : Prop where
  le : t₀ ≤ t
  row {key : Key} {row : Row} : c.rows key = some row → row.key = key ∧ σ.Seen t₀ t row
  held {key : Key} : c.locks.holds key .read → ∃ τ, t₀ ≤ τ ∧ τ ≤ t ∧ σ.Rests c.tx u key τ ∧
    ∀ row, c.rows key = some row → row ∈ (σ.rows τ).toList
  single {finder : Finder} {key : Key} : c.singles finder = some (some key) →
    (∃ row, c.rows key = some row) ∧ Fits σ t₀ t finder key
  origin {key : Key} {owner : Option Key} : c.origins key = some owner →
    (∃ row, c.rows key = some row) ∧ ∃ old, σ.Seen t₀ t old ∧ old.key = key ∧ old.owner? = owner
  known {key : Key} {row : Row} : c.rows key = some row → ∃ owner, c.origins key = some owner

theorem Fits.mono {key : Key} (h : Fits σ t₀ t finder key) (ht : t ≤ t') :
    Fits σ t₀ t' finder key :=
  have ⟨old, hs, ho⟩ := h
  ⟨old, hs.mono ht, ho⟩

namespace Tracks

theorem new (tx : TxId) : Tracks σ t t t (.new tx) where
  le := le_rfl
  row h := by cases h
  held h := absurd h LockSet.not_holds_empty
  single h := by cases h
  origin h := by cases h
  known h := by cases h

theorem mono (h : Tracks σ t₀ t u c) (ht : t ≤ t') (hu : u ≤ u') : Tracks σ t₀ t' u' c where
  le := h.le.trans ht
  row hk := (h.row hk).imp_right (·.mono ht)
  held hk :=
    have ⟨τ, h₀, hτ, hr, hrows⟩ := h.held hk
    ⟨τ, h₀, hτ.trans ht, hr.mono hu, hrows⟩
  single hk := (h.single hk).imp_right (·.mono ht)
  origin hk :=
    (h.origin hk).imp_right fun ⟨old, hs, ho⟩ => ⟨old, hs.mono ht, ho⟩
  known := h.known

-- A key is locked whose row, if one is known, is in the store.
theorem lock {key : Key} (h : Tracks σ t₀ t u c)
    (hrow : ∀ row, c.rows key = some row → row ∈ (σ.rows t).toList)
    (hrests : kind ≠ .readCommitted → σ.Rests c.tx u key t) : Tracks σ t₀ t u (c.lock key kind) :=
  { h with
    held := fun {k} hk => by
      obtain hk | ⟨rfl, hkind⟩ := LockSet.holds_record_iff.mp hk
      · exact h.held hk
      · exact ⟨t, h.le, le_rfl, hrests (LockKind.read_le_iff.mp hkind), hrow⟩ }

-- A row that is in the store becomes known.
theorem remember (h : Tracks σ t₀ t u c) (hrow : row ∈ (σ.rows t).toList) :
    Tracks σ t₀ t u (c.remember row) := by
  have hseen : σ.Seen t₀ t row := ⟨t, h.le, le_rfl, hrow⟩
  have hnew : (c.remember row).rows row.key = some row := (remember_rows _).trans (if_pos rfl)
  have hkept {key : Key} (hk : ∃ r, c.rows key = some r) : ∃ r, (c.remember row).rows key = some r := by
    by_cases heq : key = row.key
    case pos => exact ⟨row, heq ▸ hnew⟩
    case neg => exact hk.imp fun r hr => ((remember_rows key).trans (if_neg heq)).trans hr
  refine ⟨h.le, fun {key r} hk => ?row, fun {key} hk => ?held, fun {f key} hk => ?single,
    fun {key owner} hk => ?origin, fun {key r} hk => ?known⟩
  case row =>
    obtain ⟨rfl, rfl⟩ | ⟨-, hk⟩ := row_of_remember hk
    · exact ⟨rfl, hseen⟩
    · exact h.row hk
  case held =>
    have ⟨τ, h₀, hτ, hr, hrows⟩ := h.held hk
    by_cases heq : key = row.key
    case pos =>
      refine ⟨t, h.le, le_rfl, hr.after hτ, fun r hr => ?_⟩
      cases (heq ▸ hnew).symm.trans hr
      exact hrow
    case neg =>
      refine ⟨τ, h₀, hτ, hr, fun r hr => ?_⟩
      obtain ⟨-, rfl⟩ | ⟨-, hr⟩ := row_of_remember hr
      · exact absurd rfl heq
      · exact hrows r hr
  case single =>
    obtain hk | ⟨hmem, hk⟩ := single_of_remember hk
    · exact ⟨hkept (h.single hk).1, (h.single hk).2⟩
    · cases hk
      exact ⟨⟨row, hnew⟩, row, hseen, rfl, Row.selects_of_mem_finders hmem⟩
  case origin =>
    obtain hk | ⟨rfl, rfl⟩ := origin_of_remember hk
    · exact ⟨hkept (h.origin hk).1, (h.origin hk).2⟩
    · exact ⟨⟨row, hnew⟩, row, hseen, rfl, rfl⟩
  case known =>
    rw [remember_origins]
    split
    case isTrue => exact ⟨_, rfl⟩
    case isFalse hne =>
      obtain ⟨-, heq⟩ | ⟨-, hk⟩ := row_of_remember hk
      · exact absurd heq hne
      · exact h.known hk

theorem remember_lock (h : Tracks σ t₀ t u c) (hrow : row ∈ (σ.rows t).toList)
    (hrests : kind ≠ .readCommitted → σ.Rests c.tx u row.key t) :
    Tracks σ t₀ t u ((c.remember row).lock row.key kind) := by
  refine (h.remember hrow).lock (fun r hr => ?_) hrests
  obtain ⟨rfl, -⟩ | ⟨hne, -⟩ := row_of_remember hr
  · exact hrow
  · exact absurd rfl hne

theorem setSingle {key? : Option Key} (h : Tracks σ t₀ t u c)
    (hkey : ∀ key, key? = some key → (∃ row, c.rows key = some row) ∧ Fits σ t₀ t finder key) :
    Tracks σ t₀ t u (c.setSingle finder key?) :=
  { h with
    single := fun {f key} hk => by
      rw [setSingle_singles] at hk
      split at hk
      case isTrue hf =>
        cases hf
        exact hkey key (Option.some.inj hk)
      case isFalse => exact h.single hk }

theorem learnLocked {found : Option Row} {n : Nat} (h : Tracks σ t₀ t t c)
    (hfresh : ∀ key, finder.key? = some key → c.rows key = none)
    (hf : Program.FoundBy σ c.tx t u kind finder found n) :
    Tracks σ t₀ u u (c.learnLocked kind finder found) := by
  have ⟨hn, hu, heq, hrests⟩ := hf
  have h' : Tracks σ t₀ n u c := h.mono hn (hn.trans hu.le)
  refine Tracks.mono ?_ hu.le le_rfl
  cases found
  case some row =>
    have ⟨hmem, hsel⟩ := Rows.mem_of_lookup heq.symm
    have hlocked := h'.remember_lock hmem fun hk => hrests hk rfl
    refine hlocked.setSingle fun key hkey => ?_
    cases hkey
    refine ⟨⟨row, ?_⟩, row, ⟨n, h'.le, le_rfl, hmem⟩, rfl, hsel⟩
    exact (remember_rows row.key).trans (if_pos rfl)
  case none =>
    simp only [Context.learnLocked]
    split
    case h_1 key hkey =>
      -- The key of a row that is not there is locked as well.
      have hlocked := h'.lock (fun row hrow => by cases (hfresh key hkey).symm.trans hrow)
        fun hk => hrests hk hkey
      exact hlocked.setSingle fun key hkey => by cases hkey
    case h_2 => exact h'.setSingle fun key hkey => by cases hkey

theorem remember_lock_all {found : List Row} (h : Tracks σ t₀ t u c)
    (hrows : ∀ row ∈ found, row ∈ (σ.rows t).toList)
    (hrests : ∀ row ∈ found, kind ≠ .readCommitted → σ.Rests c.tx u row.key t) :
    Tracks σ t₀ t u (found.foldl (fun c row => (c.remember row).lock row.key kind) c) := by
  induction found generalizing c
  case nil => exact h
  case cons row found ih =>
    have hrow := h.remember_lock (hrows row List.mem_cons_self) (hrests row List.mem_cons_self)
    exact ih hrow (fun r hr => hrows r (List.mem_cons_of_mem _ hr))
      fun r hr => hrests r (List.mem_cons_of_mem _ hr)

theorem learnLockedList {found : List Row} {n : Nat} (h : Tracks σ t₀ t t c)
    (hf : Program.ListedBy σ c.tx t u kind finder found n) :
    Tracks σ t₀ u u (c.learnLockedList kind finder found) := by
  have ⟨hn, hu, heq, hrests⟩ := hf
  have h' : Tracks σ t₀ n u c := h.mono hn (hn.trans hu.le)
  have hlocked : Tracks σ t₀ n u
      (found.foldl (fun c row => (c.remember row).lock row.key kind) c) :=
    h'.remember_lock_all (fun row hrow => (Rows.mem_lookupList_iff.mp (heq ▸ hrow)).1)
      fun row hrow hk => hrests hk hrow
  exact { hlocked.mono hu.le le_rfl with }

end Tracks

theorem Grows.remember_lock : c.Grows ((c.remember row).lock row.key kind) :=
  ⟨rfl, rfl, rfl, fun h => LockSet.holds_record_iff.mpr (.inl h)⟩

theorem Grows.learnLocked {found : Option Row} : c.Grows (c.learnLocked kind finder found) := by
  rw [Context.learnLocked.eq_def]
  split
  case h_1 row => exact ⟨rfl, rfl, rfl, fun h => LockSet.holds_record_iff.mpr (.inl h)⟩
  case h_2 =>
    split
    case h_1 key _ => exact ⟨rfl, rfl, rfl, fun h => LockSet.holds_record_iff.mpr (.inl h)⟩
    case h_2 => exact ⟨rfl, rfl, rfl, id⟩

theorem Grows.remember_lock_all {found : List Row} :
    c.Grows (found.foldl (fun c row => (c.remember row).lock row.key kind) c) := by
  induction found generalizing c
  case nil => exact .refl c
  case cons row found ih => exact Grows.remember_lock.trans ih

theorem Grows.learnLockedList {found : List Row} :
    c.Grows (c.learnLockedList kind finder found) :=
  have h : c.Grows (found.foldl (fun c row => (c.remember row).lock row.key kind) c) :=
    .remember_lock_all
  ⟨h.tx, h.changes, h.sealed, h.holds⟩

-- The context has the answer to a lookup of one row.
structure Answers (c : Context) (finder : Finder) (found : Option Row) : Prop where
  single : c.singles finder = some (found.map Row.key)
  row {row : Row} : found = some row → c.rows row.key = some row

-- What a lookup under a lock finds is known afterwards.
theorem Answers.learnLocked (kind : LockKind) (finder : Finder) (found : Option Row) :
    (c.learnLocked kind finder found).Answers finder found := by
  cases found
  case none =>
    refine ⟨?_, fun hr => by cases hr⟩
    simp only [Context.learnLocked]
    split <;> exact (setSingle_singles finder).trans (if_pos rfl)
  case some row =>
    refine ⟨(setSingle_singles finder).trans (if_pos rfl), fun hr => ?_⟩
    cases hr
    exact (remember_rows row.key).trans (if_pos rfl)

theorem learnLocked_singles_cases (c : Context) (kind : LockKind) {finder f : Finder}
    (found : Option Row) (hne : f ≠ finder) :
    (c.learnLocked kind finder found).singles f = c.singles f ∨
      ∃ row, found = some row ∧ f ∈ row.finders ∧
        (c.learnLocked kind finder found).singles f = some ((c.singles f).getD (some row.key)) := by
  cases found
  case none =>
    simp only [Context.learnLocked]
    split <;> exact .inl ((setSingle_singles f).trans (if_neg hne))
  case some row =>
    have hsingle : (c.learnLocked kind finder (some row)).singles f = (c.remember row).singles f :=
      (setSingle_singles f).trans (if_neg hne)
    rw [hsingle, remember_singles]
    split
    case isTrue hmem => exact .inr ⟨row, rfl, hmem, rfl⟩
    case isFalse => exact .inl rfl

theorem learnLocked_rows_cases (c : Context) (kind : LockKind) (finder : Finder)
    (found : Option Row) (key : Key) :
    (c.learnLocked kind finder found).rows key = c.rows key ∨ ∃ row, found = some row ∧ row.key = key := by
  cases found
  case none =>
    simp only [Context.learnLocked]
    split <;> exact .inl rfl
  case some row =>
    by_cases hkey : row.key = key
    case pos => exact .inr ⟨row, rfl, hkey⟩
    case neg => exact .inl ((remember_rows key).trans (if_neg (Ne.symm hkey)))

theorem learnLocked_lists {found : Option Row} :
    (c.learnLocked kind finder found).lists = c.lists := by
  cases found
  case none =>
    simp only [Context.learnLocked]
    split <;> rfl
  case some => rfl

theorem holds_of_learnLocked {found : Option Row} {key : Key} {k : LockKind}
    (hk : (c.learnLocked kind finder found).locks.holds key k) : c.locks.holds key k ∨
      k ≤ kind ∧ ((∃ row, found = some row ∧ row.key = key) ∨ found = none ∧ finder.key? = some key) := by
  cases found
  case none =>
    simp only [Context.learnLocked] at hk
    split at hk
    case h_1 hkey =>
      obtain hk | ⟨rfl, hle⟩ := LockSet.holds_record_iff.mp hk
      · exact .inl hk
      · exact .inr ⟨hle, .inr ⟨rfl, hkey⟩⟩
    case h_2 => exact .inl hk
  case some row =>
    obtain hk | ⟨hkey, hle⟩ := LockSet.holds_record_iff.mp hk
    · exact .inl hk
    · exact .inr ⟨hle, .inl ⟨row, rfl, hkey⟩⟩

-- A row that a lookup under a lock gave: it is known and locked, and it was there at some moment,
-- on which the transaction rests if the lock is stronger than read committed.
structure Locked (σ : Timeline) (t₀ u : Nat) (c : Context) (kind : LockKind) (finder : Finder)
    (row : Row) : Prop where
  seen : ∃ τ, t₀ ≤ τ ∧ τ ≤ u ∧ row ∈ (σ.rows τ).toList ∧
    (kind ≠ .readCommitted → σ.Rests c.tx u row.key τ)
  fits : Fits σ t₀ u finder row.key
  holds : c.locks.holds row.key kind
  known : c.rows row.key = some row

theorem Locked.mono (h : Locked σ t₀ u c kind finder row) (hu : u ≤ u') :
    Locked σ t₀ u' c kind finder row where
  seen :=
    have ⟨τ, h₀, hτ, hm, hr⟩ := h.seen
    ⟨τ, h₀, hτ.trans hu, hm, fun hk => (hr hk).mono hu⟩
  fits := h.fits.mono hu
  holds := h.holds
  known := h.known

theorem Tracks.locked_of_answer (h : Tracks σ t₀ t t c)
    (hfresh : ∀ key, finder.key? = some key → c.rows key = none) {found : Option Row}
    (ha : c.lockedAnswer? kind finder = some found) :
    ∃ row, found = some row ∧ Locked σ t₀ t c kind finder row ∧ c.Answers finder found := by
  obtain ⟨key, hholds, hs, rfl⟩ | ⟨key, row, -, hkey, hrow, -⟩ := lockedAnswer?_cases ha
  case inr => cases (hfresh key hkey).symm.trans hrow
  case inl =>
    obtain ⟨⟨row, hknown⟩, hfits⟩ := h.single hs
    obtain ⟨rfl, hseen⟩ := h.row hknown
    rw [hknown]
    refine ⟨row, rfl, ⟨?_, hfits, hholds, hknown⟩, hs, fun hrow => Option.some.inj hrow ▸ hknown⟩
    by_cases hk : kind = .readCommitted
    case pos =>
      have ⟨τ, h₀, hτ, hm⟩ := hseen
      exact ⟨τ, h₀, hτ, hm, fun hne => absurd hk hne⟩
    case neg =>
      have ⟨τ, h₀, hτ, hr, hm⟩ := h.held (LockSet.holds_of_le hholds (LockKind.read_le_iff.mpr hk))
      exact ⟨τ, h₀, hτ, hm row hknown, fun _ => hr⟩

theorem Tracks.locked_of_found (h : Tracks σ t₀ t t c) {n : Nat}
    (hf : Program.FoundBy σ c.tx t u kind finder (some row) n) :
    Locked σ t₀ u (c.learnLocked kind finder (some row)) kind finder row := by
  have ⟨hn, hu, heq, hrests⟩ := hf
  have ⟨hmem, hsel⟩ := Rows.mem_of_lookup heq.symm
  have hn₀ : t₀ ≤ n := h.le.trans hn
  refine ⟨⟨n, hn₀, hu.le, hmem, fun hk => hrests hk rfl⟩, ⟨row, ⟨n, hn₀, hu.le, hmem⟩, rfl, hsel⟩,
    ?_, ?_⟩
  · exact LockSet.holds_record_iff.mpr (.inr ⟨rfl, LockKind.le_refl kind⟩)
  · exact (remember_rows row.key).trans (if_pos rfl)

end Context

namespace Action

open Stage Context

variable {σ : Timeline} {t₀ t u : Nat} {c c' : Context} {kind : LockKind} {finder : Finder}

-- How a lookup of one row under a lock ends.
structure LockFound (σ : Timeline) (t₀ t : Nat) (c : Context) (kind : LockKind) (finder : Finder)
    (found : Option Row) (c' : Context) (u : Nat) : Prop where
  tracks : Tracks σ t₀ u u c'
  grows : c.Grows c'
  locked {row : Row} : found = some row → Locked σ t₀ u c' kind finder row
  -- A row that is not there was looked up in the store.
  absent : found = none → c' = c.learnLocked kind finder none ∧
    ∃ n, Program.FoundBy σ c.tx t u kind finder none n
  answers : c'.Answers finder found
  -- The answer was there already, or it is the store's.
  source : c.singles finder = some (found.map Row.key) ∨
    ∃ n, Program.FoundBy σ c.tx t u kind finder found n
  singles {f : Finder} : f ≠ finder → c'.singles f = c.singles f ∨
    ∃ row, found = some row ∧ finder.selects row ∧ f ∈ row.finders ∧
      c'.singles f = some ((c.singles f).getD (some row.key))
  rows {key : Key} : c'.rows key = c.rows key ∨ ∃ row, found = some row ∧ row.key = key
  lists : c'.lists = c.lists
  -- What is locked is the row that was found, or the key of the row that was not.
  held {key : Key} {k : LockKind} : c'.locks.holds key k → c.locks.holds key k ∨
    k ≤ kind ∧ ((∃ row, found = some row ∧ row.key = key) ∨ found = none ∧ finder.key? = some key)
  -- Under a key of its own, no row is known before.
  asked {key : Key} : finder.key? = some key →
    ∃ n, Program.FoundBy σ c.tx t u kind finder found n

theorem LockFound.of_known {row : Row} (h : Tracks σ t₀ t t c) (hu : t ≤ u)
    (hl : Locked σ t₀ t c kind finder row) (ha : c.Answers finder (some row))
    (hfresh : ∀ key, finder.key? = some key → c.rows key = none) :
    LockFound σ t₀ t c kind finder (some row) c u where
  asked {key} hkey := by
    have ⟨old, _, hold, hsel⟩ := hl.fits
    have hrow : row.key = key := hold.symm.trans (Finder.key_of_selects hkey hsel)
    cases (hfresh key hkey).symm.trans (hrow ▸ hl.known)
  tracks := h.mono hu hu
  grows := .refl c
  locked hr := by
    cases hr
    exact hl.mono hu
  absent hr := by cases hr
  answers := ha
  source := .inl ha.single
  singles _ := .inl rfl
  rows := .inl rfl
  lists := rfl
  held := .inl

theorem LockFound.of_asked {found : Option Row} {n : Nat} (h : Tracks σ t₀ t t c)
    (hfresh : ∀ key, finder.key? = some key → c.rows key = none)
    (hf : Program.FoundBy σ c.tx t u kind finder found n) :
    LockFound σ t₀ t c kind finder found (c.learnLocked kind finder found) u where
  asked _ := ⟨n, hf⟩
  tracks := h.learnLocked hfresh hf
  grows := .learnLocked
  locked hr := by
    cases hr
    exact h.locked_of_found hf
  absent hr := by
    cases hr
    exact ⟨rfl, n, hf⟩
  answers := .learnLocked kind finder found
  source := .inr ⟨n, hf⟩
  singles hne := (c.learnLocked_singles_cases kind found hne).imp_right fun ⟨row, hrow, hmem, heq⟩ =>
    ⟨row, hrow, (Rows.mem_of_lookup (hf.eq.symm.trans hrow)).2, hmem, heq⟩
  rows := c.learnLocked_rows_cases kind finder found _
  lists := learnLocked_lists
  held := holds_of_learnLocked

-- A lookup that finds a node, by its name or at the root, answers no other lookup by name.
theorem LockFound.sources {row : Row} {f : Finder} {key? : Option Key}
    (h : LockFound σ t₀ t c kind finder (some row) c' u)
    (hfinder : finder = .node .root ∨ finder.key? = none) (hs : c'.singles f = some key?)
    (hsort : key? = none ∨ f.key? = none) : c.singles f = some key? ∨ f = finder ∧ key? ≠ none := by
  by_cases hf : f = finder
  case pos =>
    rw [hf, h.answers.single] at hs
    exact .inr ⟨hf, by simp [← Option.some.inj hs]⟩
  case neg =>
    obtain heq | ⟨_, hrow, hsel, hmem, heq⟩ := h.singles hf
    · exact .inl (heq ▸ hs)
    · cases hrow
      cases hknown : c.singles f
      case some known =>
        rw [hknown] at heq
        exact .inl (heq.symm.trans hs)
      case none =>
        rw [hknown] at heq
        cases heq.symm.trans hs
        have hkey : f.key? = none := hsort.resolve_left (by simp)
        exact absurd (Row.eq_of_mem_finders hfinder hkey hmem hsel) hf

theorem lockFind_found (h : Tracks σ t₀ t t c) (ho : c.sealed = false)
    (hfresh : ∀ key, finder.key? = some key → c.rows key = none) :
    Gives σ (lockFind kind finder) c t (LockFound σ t₀ t c kind finder) := by
  refine (lockFind_gives ho).mono fun found c' u hu hfound => ?_
  obtain ⟨ha, rfl⟩ | ⟨-, ⟨n, hf⟩, rfl⟩ := hfound
  · obtain ⟨row, rfl, hl, ha⟩ := h.locked_of_answer hfresh ha
    exact .of_known h hu hl ha hfresh
  · exact .of_asked h hfresh hf

end Action

end NamespaceService
