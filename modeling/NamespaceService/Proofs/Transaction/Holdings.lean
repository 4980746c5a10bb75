import Mathlib.Data.List.Basic
import NamespaceService.Proofs.Transaction.Walk

namespace NamespaceService

namespace Context

variable {σ : Timeline} {t₀ t u : Nat} {c c' : Context} {kind : LockKind} {finder f : Finder}
  {found : List Row} {key key' : Key} {n : Node}

theorem Answers.known {found : Option Row} (h : c.Answers finder found) :
    c.knownAnswer? finder = some found := by
  rw [knownAnswer?, knownSingle?, h.single]
  cases found
  case none => rfl
  case some row => exact congrArg some (h.row rfl)

-- A row that was looked up by its key under a lock.
structure LookedUp (σ : Timeline) (t₀ u : Nat) (c : Context) (kind : LockKind) (finder : Finder)
    (found : Option Row) : Prop where
  seen : ∃ τ, t₀ ≤ τ ∧ τ ≤ u ∧ found = (σ.rows τ).lookup finder ∧
    ∀ key, finder.key? = some key → kind ≠ .readCommitted → σ.Rests c.tx u key τ
  answers : c.Answers finder found
  holds {key : Key} : finder.key? = some key → c.locks.holds key kind

-- A list that was looked up under a lock, after the node that it belongs to.
structure Listed (σ : Timeline) (t₀ u : Nat) (c : Context) (kind : LockKind) (finder : Finder)
    (n : Node) (found : List Row) : Prop where
  seen : ∃ τ, t₀ ≤ τ ∧ τ ≤ u ∧ found = (σ.rows τ).lookupList finder ∧
    (∃ τ' ≤ τ, t₀ ≤ τ' ∧ .node n ∈ (σ.rows τ').toList) ∧ σ.Rests c.tx u (.node n.id) τ ∧
    ∀ row ∈ found, kind ≠ .readCommitted → σ.Rests c.tx u row.key τ
  known : c.knownList? finder = some found
  holds {row : Row} : row ∈ found → c.locks.holds row.key kind

theorem LookedUp.wait {found : Option Row} (h : LookedUp σ t₀ t c kind finder found)
    (hu : t ≤ u) : LookedUp σ t₀ u c kind finder found where
  seen :=
    have ⟨τ, h₀, hτ, hfound, hrests⟩ := h.seen
    ⟨τ, h₀, hτ.trans hu, hfound, fun key hkey hkind => (hrests key hkey hkind).mono hu⟩
  answers := h.answers
  holds := h.holds

theorem Listed.weaken {weaker : LockKind} (h : Listed σ t₀ u c kind finder n found)
    (hle : weaker ≤ kind) : Listed σ t₀ u c weaker finder n found where
  seen :=
    have ⟨τ, h₀, hτ, hfound, hn, hrests, hrows⟩ := h.seen
    ⟨τ, h₀, hτ, hfound, hn, hrests, fun row hrow hweaker =>
      hrows row hrow (LockKind.read_le_iff.mp (LockKind.le_trans (LockKind.read_le_iff.mpr hweaker) hle))⟩
  known := h.known
  holds hrow := LockSet.holds_of_le (h.holds hrow) hle

theorem Listed.wait (h : Listed σ t₀ t c kind finder n found) (hu : t ≤ u) :
    Listed σ t₀ u c kind finder n found where
  seen :=
    have ⟨τ, h₀, hτ, hfound, hn, hrests, hrows⟩ := h.seen
    ⟨τ, h₀, hτ.trans hu, hfound, hn, hrests.mono hu,
      fun row hrow hkind => (hrows row hrow hkind).mono hu⟩
  known := h.known
  holds := h.holds

theorem foldl_remember_lock_rows (h : ∀ row ∈ found, row.key ≠ key) :
    (found.foldl (fun c row => (c.remember row).lock row.key kind) c).rows key = c.rows key := by
  induction found generalizing c
  case nil => rfl
  case cons row found ih =>
    rw [List.foldl_cons, ih fun r hr => h r (List.mem_cons_of_mem _ hr)]
    exact (remember_rows key).trans (if_neg (h row List.mem_cons_self).symm)

theorem foldl_remember_lock_known {row : Row} (hrow : row ∈ found)
    (hkeys : found.Pairwise fun a b => a.key ≠ b.key) :
    (found.foldl (fun c row => (c.remember row).lock row.key kind) c).rows row.key = some row := by
  induction found generalizing c
  case nil => cases hrow
  case cons first found ih =>
    have ⟨hfirst, hfound⟩ := List.pairwise_cons.mp hkeys
    obtain rfl | hrow := List.mem_cons.mp hrow
    · rw [List.foldl_cons, foldl_remember_lock_rows fun r hr => (hfirst r hr).symm]
      exact (remember_rows row.key).trans (if_pos rfl)
    · exact ih hrow hfound

theorem foldl_remember_lock_holds {row : Row} (hrow : row ∈ found) :
    (found.foldl (fun c row => (c.remember row).lock row.key kind) c).locks.holds row.key kind := by
  induction found generalizing c
  case nil => cases hrow
  case cons first found ih =>
    obtain rfl | hrow := List.mem_cons.mp hrow
    · have hfirst : ((c.remember row).lock row.key kind).locks.holds row.key kind :=
        LockSet.holds_record_iff.mpr (.inr ⟨rfl, LockKind.le_refl kind⟩)
      exact Grows.holds (c := (c.remember row).lock row.key kind) .remember_lock_all hfirst
    · exact ih hrow

theorem foldl_remember_lock_some {row : Row} (hrow : c.rows key = some row) :
    ∃ row', (found.foldl (fun c row => (c.remember row).lock row.key kind) c).rows key =
      some row' := by
  induction found generalizing c row
  case nil => exact ⟨row, hrow⟩
  case cons first found ih =>
    by_cases hkey : key = first.key
    case pos => exact ih ((remember_rows key).trans (if_pos hkey))
    case neg => exact ih (((remember_rows key).trans (if_neg hkey)).trans hrow)

end Context

theorem Rows.lookupList_keys (rows : Rows) (finder : Finder) :
    (rows.lookupList finder).Pairwise fun a b => a.key ≠ b.key :=
  (rows.sorted.filter _).imp Ranked.Before.ne

namespace Action

open Context Stage

variable {σ : Timeline} {t₀ t u : Nat} {c c' : Context} {kind kind' : LockKind}
  {finder finder' : Finder} {found found' : Option Row} {key key' : Key} {n : Node}

theorem LockFound.lookedUp (h : LockFound σ t₀ t c kind finder found c' u)
    (hkey : finder.key? = some key) (ht : t₀ ≤ t) : LookedUp σ t₀ u c' kind finder found where
  seen := by
    obtain ⟨n, hf⟩ := h.asked hkey
    refine ⟨n, ht.trans hf.le, hf.lt.le, hf.eq, fun k hk hkind => h.grows.tx ▸ hf.restsOn hkind ?_⟩
    cases found
    case none => exact hk
    case some row =>
      obtain ⟨_, hsel⟩ := Rows.mem_of_lookup hf.eq.symm
      exact congrArg some (Finder.key_of_selects hk hsel)
  answers := h.answers
  holds {k} hk := by
    cases found
    case none =>
      have hc := (h.absent rfl).1
      rw [hc]
      simp only [learnLocked, hk]
      exact LockSet.holds_record_iff.mpr (.inr ⟨rfl, LockKind.le_refl kind⟩)
    case some row =>
      have hl := h.locked rfl
      obtain ⟨old, _, hold, hsel⟩ := hl.fits
      exact hold.symm.trans (Finder.key_of_selects hk hsel) ▸ hl.holds

-- A lookup by another key leaves the answer alone.
theorem LockFound.rows_eq (h : LockFound σ t₀ t c kind finder found c' u)
    (hkey : finder.key? = some key) (hne : key' ≠ key) : c'.rows key' = c.rows key' := by
  obtain heq | ⟨row, hfound, rfl⟩ : c'.rows key' = c.rows key' ∨ _ := h.rows
  · exact heq
  · have ⟨old, _, hold, hsel⟩ := (h.locked hfound).fits
    exact absurd (hold.symm.trans (Finder.key_of_selects hkey hsel)) hne

-- A list is looked up after the node that it belongs to was locked.
theorem lockList_listed {kind : LockKind} (h : Tracks σ t₀ t t c) (ho : c.sealed = false)
    (hl : c.lists finder = none) (hseen : ∃ τ, t₀ ≤ τ ∧ τ ≤ t ∧ .node n ∈ (σ.rows τ).toList ∧
      σ.Rests c.tx t (.node n.id) τ) :
    Gives σ (lockList kind finder) c t fun found c' u =>
      Advances σ t₀ t u c c' ∧ Listed σ t₀ u c' kind finder n found := by
  refine (lockList_gives ho).mono fun found c' u hu hfound => ?_
  obtain ⟨hknown, -⟩ | ⟨-, ⟨m, hf⟩, rfl⟩ := hfound
  · simp [lockedList?, hl] at hknown
  · have hkeys : found.Pairwise fun a b => a.key ≠ b.key := hf.eq ▸ Rows.lookupList_keys ..
    have hknown : ∀ row ∈ found, (c.learnLockedList kind finder found).rows row.key = some row :=
      fun row hrow => foldl_remember_lock_known hrow hkeys
    have hgrows : c.Grows (c.learnLockedList kind finder found) := .learnLockedList
    constructor
    case left =>
      exact
        { le := hu
          tracks := h.learnLockedList hf
          grows := hgrows
          known := foldl_remember_lock_some }
    case right =>
      obtain ⟨τ, h₀, hτ, hmem, hrests⟩ := hseen
      have hm : t₀ ≤ m := h.le.trans hf.le
      refine ⟨⟨m, hm, hf.lt.le, hf.eq, ⟨τ, hτ.trans hf.le, h₀, hmem⟩, ?_, fun row hrow hkind => ?_⟩,
        ?_, fun hrow => foldl_remember_lock_holds hrow⟩
      · exact hgrows.tx ▸ (hrests.mono hu).after (hτ.trans hf.le)
      · exact hgrows.tx ▸ hf.restsOn hkind hrow
      · have hlist : (c.learnLockedList kind finder found).lists finder = some (found.map Row.key) :=
          if_pos rfl
        rw [knownList?, hlist, Option.map_some, rowsOf, List.filterMap_map]
        exact congrArg some ((List.filterMap_congr hknown).trans List.filterMap_some)

end Action

namespace Context

open NamespaceService.Action

variable {σ : Timeline} {t₀ t u : Nat} {c c' : Context} {kind kind' : LockKind}
  {finder finder' : Finder} {found found' : Option Row} {key key' : Key}

theorem LookedUp.advance (h : LookedUp σ t₀ t c kind' finder' found')
    (hkey' : finder'.key? = some key') (h' : LockFound σ t₀ t c kind finder found c' u)
    (hkey : finder.key? = some key) (hne : key' ≠ key) (hu : t ≤ u) :
    LookedUp σ t₀ u c' kind' finder' found' where
  seen :=
    have ⟨τ, h₀, hτ, hfound, hrests⟩ := h.seen
    ⟨τ, h₀, hτ.trans hu, hfound, fun k hk hkind => h'.grows.tx ▸ (hrests k hk hkind).mono hu⟩
  answers := by
    have hother {row : Row} (hfound : found = some row) : row.key = key := by
      have ⟨old, _, hold, hsel⟩ := (h'.locked hfound).fits
      exact hold.symm.trans (Finder.key_of_selects hkey hsel)
    refine ⟨?_, fun {row} hrow => ?_⟩
    · have hfinder : finder' ≠ finder := fun heq =>
        hne (Option.some.inj (hkey'.symm.trans (heq ▸ hkey)))
      obtain heq | ⟨row, hfound, -, hmem, -⟩ := h'.singles hfinder
      · exact heq.trans h.answers.single
      · have := Finder.key_of_selects hkey' (Row.selects_of_mem_finders hmem)
        exact absurd (this.symm.trans (hother hfound)) hne
    · have hrow' : row.key = key' := by
        have ⟨τ, _, _, hfound, _⟩ := h.seen
        rw [hrow, Rows.lookup_of_key? hkey'] at hfound
        exact SortedBy.key_of_find? hfound.symm
      exact (h'.rows_eq hkey (hrow' ▸ hne)).trans (h.answers.row hrow)
  holds hk := h'.grows.holds (h.holds hk)

end Context

end NamespaceService
