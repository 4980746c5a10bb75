import Mathlib.Order.Nat
import NamespaceService.Proofs.Store.Rows

namespace NamespaceService

namespace Change

-- The owner that the changed row is put under, or was removed from.
def owner? (rows : Rows) : Change → Option Key
  | .upsert row => row.owner?
  | .remove key => (rows.find? key).bind Row.owner?

-- The keys whose versions a change moves.
def Touches (change : Change) (rows : Rows) (key : Key) : Prop :=
  change.key = key ∨ change.owner? rows = some key

end Change

namespace Store

variable {s s₁ s₂ s₃ : Store} {tx : TxId} {key : Key} {change : Change} {changes : List Change}

@[simp]
theorem record_rows (event : Event) : (s.record event).rows = s.rows := rfl

@[simp]
theorem record_begun (event : Event) : (s.record event).begun = s.begun :=
  rfl

@[simp]
theorem record_version (event : Event) : (s.record event).version = s.version := rfl

@[simp]
theorem record_observed (event : Event) : (s.record event).observed = s.observed := rfl

@[simp]
theorem record_faults (event : Event) : (s.record event).faults = s.faults := rfl

@[simp]
theorem bump_rows : (s.bump key).rows = s.rows := rfl

@[simp]
theorem bumpOwner_rows (row : Row) : (s.bumpOwner row).rows = s.rows := by
  rw [bumpOwner]; split <;> rfl

theorem bump_version (k : Key) :
    (s.bump key).version k = s.version k + if k = key then 1 else 0 := by
  by_cases h : k = key <;> simp [bump, h]

theorem bumpOwner_version (row : Row) (k : Key) :
    (s.bumpOwner row).version k = s.version k + if row.owner? = some k then 1 else 0 := by
  rw [bumpOwner]
  split
  case h_1 owner h => rw [bump_version, h]; simp [eq_comm]
  case h_2 h => simp [h]

@[simp]
theorem put_rows (row : Row) : (s.put row).rows = s.rows.insert row := rfl

@[simp]
theorem put_version (row : Row) : (s.put row).version = s.version := rfl

theorem apply_rows (change : Change) : (s.apply change).rows = s.rows.apply change := by
  cases change
  case upsert row => simp [apply, Rows.apply]
  case remove k => rfl

@[simp]
theorem bumpOwner_observed (row : Row) : (s.bumpOwner row).observed = s.observed := by
  rw [bumpOwner]; split <;> rfl

@[simp]
theorem bumpOwner_faults (row : Row) : (s.bumpOwner row).faults = s.faults := by
  rw [bumpOwner]; split <;> rfl

@[simp]
theorem bumpOwner_begun (row : Row) : (s.bumpOwner row).begun = s.begun := by
  rw [bumpOwner]; split <;> rfl

@[simp]
theorem apply_observed (change : Change) : (s.apply change).observed = s.observed := by
  cases change
  case upsert row => exact s.bumpOwner_observed row
  case remove k =>
    simp only [apply]
    split
    case h_1 old _ => exact s.bumpOwner_observed old
    case h_2 => rfl

@[simp]
theorem apply_faults (change : Change) : (s.apply change).faults = s.faults := by
  cases change
  case upsert row => exact s.bumpOwner_faults row
  case remove k =>
    simp only [apply]
    split
    case h_1 old _ => exact s.bumpOwner_faults old
    case h_2 => rfl

@[simp]
theorem apply_begun (change : Change) : (s.apply change).begun = s.begun := by
  cases change
  case upsert row => exact s.bumpOwner_begun row
  case remove k =>
    simp only [apply]
    split
    case h_1 old _ => exact s.bumpOwner_begun old
    case h_2 => rfl

theorem apply_version (change : Change) (k : Key) :
    (s.apply change).version k = s.version k + (if change.owner? s.rows = some k then 1 else 0) +
      (if k = change.key then 1 else 0) := by
  cases change
  case upsert row =>
    simp only [apply, put_version, bump_version, bumpOwner_version, Change.owner?, Change.key]
    congr
  case remove key =>
    simp only [apply, bump_version, Change.owner?, Change.key]
    split
    case h_1 old hf => simp only [hf, bumpOwner_version, Option.bind_some]; congr
    case h_2 hf => simp only [hf, Option.bind_none, reduceCtorEq, if_false, Nat.add_zero]; congr

theorem version_le_apply (change : Change) (k : Key) : s.version k ≤ (s.apply change).version k := by
  rw [apply_version]; omega

-- A change moves the versions of the keys it touches, and no others.
theorem apply_version_eq_iff :
    (s.apply change).version key = s.version key ↔ ¬change.Touches s.rows key := by
  rw [apply_version, Change.Touches, not_or, eq_comm (a := change.key)]
  constructor
  case mp =>
    intro h
    constructor <;> intro hk <;> simp only [hk, if_true] at h <;> omega
  case mpr => exact fun ⟨hk, ho⟩ => by simp [hk, ho]

@[simp]
theorem foldl_apply_observed : (changes.foldl apply s).observed = s.observed := by
  induction changes generalizing s <;> simp [*]

@[simp]
theorem foldl_apply_faults : (changes.foldl apply s).faults = s.faults := by
  induction changes generalizing s <;> simp [*]

@[simp]
theorem foldl_apply_begun : (changes.foldl apply s).begun = s.begun := by
  induction changes generalizing s <;> simp [*]

theorem foldl_apply_rows : (changes.foldl apply s).rows = changes.foldl Rows.apply s.rows := by
  induction changes generalizing s <;> simp [apply_rows, *]

-- What holds between a store and what later calls make of it.
structure Later (s s' : Store) : Prop where
  version_le (key : Key) : s.version key ≤ s'.version key
  find?_eq {key : Key} : s'.version key = s.version key → s'.rows.find? key = s.rows.find? key
  mem_of_owner {key : Key} {row : Row} : s'.version key = s.version key →
    row ∈ s'.rows.toList → row.owner? = some key → row ∈ s.rows.toList
  observed {tx : TxId} {read : Key × Nat} : read ∈ s.observed tx → read ∈ s'.observed tx

namespace Later

theorem refl (s : Store) : s.Later s where
  version_le _ := le_rfl
  find?_eq _ := rfl
  mem_of_owner _ h _ := h
  observed h := h

-- A version that is the same at both ends was the same in between.
theorem trans (h₁ : s₁.Later s₂) (h₂ : s₂.Later s₃) : s₁.Later s₃ where
  version_le key := (h₁.version_le key).trans (h₂.version_le key)
  find?_eq {key} h := by
    have := h₁.version_le key
    have := h₂.version_le key
    rw [h₂.find?_eq (by omega), h₁.find?_eq (by omega)]
  mem_of_owner {key _} h hm ho := by
    have := h₁.version_le key
    have := h₂.version_le key
    exact h₁.mem_of_owner (by omega) (h₂.mem_of_owner (by omega) hm ho) ho
  observed h := h₂.observed (h₁.observed h)

theorem of_eq (hr : s₂.rows = s₁.rows) (hv : s₂.version = s₁.version)
    (ho : ∀ tx, ∀ read ∈ s₁.observed tx, read ∈ s₂.observed tx) : s₁.Later s₂ where
  version_le key := (congrFun hv key).ge
  find?_eq _ := by rw [hr]
  mem_of_owner _ h _ := hr ▸ h
  observed := ho _ _

theorem apply (s : Store) (change : Change) : s.Later (s.apply change) where
  version_le := s.version_le_apply change
  find?_eq {key} h := by
    have hk : change.key ≠ key := fun hk => apply_version_eq_iff.mp h (.inl hk)
    rw [apply_rows]
    cases change
    case upsert row => exact (SortedBy.find?_insert ..).trans (if_neg hk)
    case remove k => exact (SortedBy.find?_erase ..).trans (if_neg hk)
  mem_of_owner {key row} h hm ho := by
    rw [apply_rows] at hm
    cases change
    case upsert new =>
      obtain rfl | hm := SortedBy.mem_insert_iff.mp hm
      · exact absurd (.inr ho) (apply_version_eq_iff.mp h)
      · exact hm.1
    case remove k => exact (SortedBy.mem_erase_iff.mp hm).1
  observed h := by simpa using h

theorem foldl_apply (s : Store) (changes : List Change) : s.Later (changes.foldl Store.apply s) := by
  induction changes generalizing s
  case nil => exact refl s
  case cons change changes ih => exact (apply s change).trans (ih _)

end Later

@[simp]
theorem observe_rows (kind : LockKind) : (s.observe tx kind key).rows = s.rows := by
  rw [observe]; split <;> rfl

@[simp]
theorem observe_version (kind : LockKind) : (s.observe tx kind key).version = s.version := by
  rw [observe]; split <;> rfl

@[simp]
theorem observe_faults (kind : LockKind) : (s.observe tx kind key).faults = s.faults := by
  rw [observe]; split <;> rfl

@[simp]
theorem observe_begun (kind : LockKind) : (s.observe tx kind key).begun = s.begun := by
  rw [observe]; split <;> rfl

theorem mem_observe_of_mem {kind : LockKind} {t : TxId} {read : Key × Nat}
    (h : read ∈ s.observed t) : read ∈ (s.observe tx kind key).observed t := by
  rw [observe]
  split
  case isTrue => exact h
  case isFalse =>
    by_cases ht : t = tx
    case pos => subst ht; simp [h]
    case neg => simpa [ht] using h

theorem eq_or_mem_of_mem_observe {kind : LockKind} {t : TxId} {read : Key × Nat}
    (h : read ∈ (s.observe tx kind key).observed t) :
    read ∈ s.observed t ∨ t = tx ∧ read = (key, s.version key) := by
  rw [observe] at h
  split at h
  case isTrue => exact .inl h
  case isFalse =>
    by_cases ht : t = tx
    case pos => subst ht; simpa using h
    case neg => exact .inl (by simpa [ht] using h)

-- A transaction rests on a version that it saw first, and that is no newer than the given one.
def RestsOn (s : Store) (tx : TxId) (key : Key) (version : Nat) : Prop :=
  ∃ v ≤ version, (key, v) ∈ s.observed tx

theorem RestsOn.later {version : Nat} (h : s₁.RestsOn tx key version) (hl : s₁.Later s₂) :
    s₂.RestsOn tx key version :=
  have ⟨v, hv, hm⟩ := h
  ⟨v, hv, hl.observed hm⟩

theorem RestsOn.mono {version version' : Nat} (h : s.RestsOn tx key version)
    (hv : version ≤ version') : s.RestsOn tx key version' :=
  have ⟨v, hle, hm⟩ := h
  ⟨v, hle.trans hv, hm⟩

-- No fault is queued, and nobody has seen a version that is still to come.
structure Coherent (s : Store) : Prop where
  quiet (operation : Operation) : s.faults operation = []
  observed_le {tx : TxId} {key : Key} {v : Nat} : (key, v) ∈ s.observed tx → v ≤ s.version key

theorem Coherent.new : Store.new.Coherent where
  quiet _ := rfl
  observed_le h := by cases h

theorem Coherent.of_eq (h : s₁.Coherent) (hf : s₂.faults = s₁.faults)
    (hv : s₂.version = s₁.version) (ho : s₂.observed = s₁.observed) : s₂.Coherent where
  quiet := hf ▸ h.quiet
  observed_le hm := by
    rw [hv]
    exact h.observed_le (ho ▸ hm)

theorem Coherent.record (h : s.Coherent) (event : Event) : (s.record event).Coherent :=
  h.of_eq rfl rfl rfl

theorem Coherent.observe (h : s.Coherent) (tx : TxId) (kind : LockKind) (key : Key) :
    (s.observe tx kind key).Coherent where
  quiet := by simpa using h.quiet
  observed_le hm := by
    rw [observe_version]
    obtain hm | ⟨-, hm⟩ := eq_or_mem_of_mem_observe hm
    · exact h.observed_le hm
    · cases hm; rfl

-- Under a kind stronger than read committed, the version seen now or earlier is kept.
theorem Coherent.observe_restsOn (h : s.Coherent) {kind : LockKind} (hk : kind ≠ .readCommitted) :
    (s.observe tx kind key).RestsOn tx key (s.version key) := by
  rw [Store.observe]
  split
  case isTrue hc =>
    obtain hc | hc := hc
    · exact absurd hc hk
    · obtain ⟨⟨_, v⟩, hm, hkey⟩ := List.any_eq_true.mp hc
      cases of_decide_eq_true hkey
      exact ⟨v, h.observed_le hm, hm⟩
  case isFalse => exact ⟨s.version key, le_rfl, by simp⟩

theorem guarded_of_quiet {ε α : Type} {operation : Operation} {onFault : Fault → ε}
    {act : Except ε α × Store} (h : s.faults operation = []) :
    s.guarded operation onFault act = act := by
  rw [guarded, h]

variable {kind : LockKind} {finder : Finder} {found : List Row}

theorem begin_eq (h : s.Coherent) : s.begin =
    (.ok (s.begun + 1), { s.record (.begin (s.begun + 1)) with begun := s.begun + 1 }) :=
  guarded_of_quiet (h.quiet .begin)

theorem rollback_eq (h : s.Coherent) : s.rollback tx = (.ok (), s.record (.rollback tx)) :=
  guarded_of_quiet (h.quiet .rollback)

theorem find_eq (h : s.Coherent) :
    s.find tx kind finder = (.ok (s.rows.lookup finder),
      match restsOn? finder (s.rows.lookup finder) with
      | some key => (s.record (.find tx kind finder)).observe tx kind key
      | none => s.record (.find tx kind finder)) :=
  guarded_of_quiet (h.quiet .find)

theorem findList_eq (h : s.Coherent) :
    s.findList tx kind finder = (.ok (s.rows.lookupList finder),
      (s.rows.lookupList finder).foldl (fun s row => s.observe tx kind row.key)
        (s.record (.findList tx kind finder))) :=
  guarded_of_quiet (h.quiet .find)

theorem find_rows (h : s.Coherent) : (s.find tx kind finder).2.rows = s.rows := by
  rw [find_eq h]
  split <;> simp

theorem find_version (h : s.Coherent) : (s.find tx kind finder).2.version = s.version := by
  rw [find_eq h]
  split <;> simp

theorem eq_or_mem_of_mem_find (h : s.Coherent) {t : TxId} {read : Key × Nat}
    (hm : read ∈ (s.find tx kind finder).2.observed t) : read ∈ s.observed t ∨ t = tx ∧
      restsOn? finder (s.rows.lookup finder) = some read.1 ∧ read.2 = s.version read.1 := by
  rw [find_eq h] at hm
  split at hm
  case h_1 key hk =>
    refine (eq_or_mem_of_mem_observe hm).imp_right fun ⟨ht, hr⟩ => ⟨ht, ?_⟩
    cases hr
    exact ⟨hk, rfl⟩
  case h_2 => exact .inl hm

theorem find_restsOn (h : s.Coherent) (hk : kind ≠ .readCommitted)
    (hr : restsOn? finder (s.rows.lookup finder) = some key) :
    (s.find tx kind finder).2.RestsOn tx key (s.version key) := by
  rw [find_eq h, hr]
  exact (h.record _).observe_restsOn hk

@[simp]
theorem foldl_observe_rows :
    (found.foldl (fun s row => s.observe tx kind row.key) s).rows = s.rows := by
  induction found generalizing s <;> simp [*]

@[simp]
theorem foldl_observe_version :
    (found.foldl (fun s row => s.observe tx kind row.key) s).version = s.version := by
  induction found generalizing s <;> simp [*]

@[simp]
theorem foldl_observe_begun :
    (found.foldl (fun s row => s.observe tx kind row.key) s).begun = s.begun := by
  induction found generalizing s <;> simp [*]

theorem mem_foldl_observe_of_mem {t : TxId} {read : Key × Nat} (h : read ∈ s.observed t) :
    read ∈ (found.foldl (fun s row => s.observe tx kind row.key) s).observed t := by
  induction found generalizing s
  case nil => exact h
  case cons row found ih => exact ih (mem_observe_of_mem h)

theorem eq_or_mem_of_mem_foldl_observe {t : TxId} {read : Key × Nat}
    (h : read ∈ (found.foldl (fun s row => s.observe tx kind row.key) s).observed t) :
    read ∈ s.observed t ∨ t = tx ∧ read.2 = s.version read.1 := by
  induction found generalizing s
  case nil => exact .inl h
  case cons row found ih =>
    obtain hm | ⟨ht, hv⟩ := ih (s := s.observe tx kind row.key) h
    · refine (eq_or_mem_of_mem_observe hm).imp_right fun ⟨ht, hr⟩ => ⟨ht, ?_⟩
      rw [hr]
    · exact .inr ⟨ht, by rwa [observe_version] at hv⟩

theorem Coherent.foldl_observe (h : s.Coherent) :
    (found.foldl (fun s row => s.observe tx kind row.key) s).Coherent := by
  induction found generalizing s
  case nil => exact h
  case cons row found ih => exact ih (h.observe ..)

theorem Coherent.foldl_observe_restsOn (h : s.Coherent) (hk : kind ≠ .readCommitted) {row : Row}
    (hr : row ∈ found) :
    (found.foldl (fun s row => s.observe tx kind row.key) s).RestsOn tx row.key
      (s.version row.key) := by
  induction found generalizing s
  case nil => cases hr
  case cons first found ih =>
    obtain rfl | hr := List.mem_cons.mp hr
    · obtain ⟨v, hv, hm⟩ : (s.observe tx kind row.key).RestsOn tx row.key _ := h.observe_restsOn hk
      exact ⟨v, hv, mem_foldl_observe_of_mem (s := s.observe tx kind row.key) hm⟩
    · simpa using ih (h.observe tx kind first.key) hr

theorem findList_rows (h : s.Coherent) : (s.findList tx kind finder).2.rows = s.rows := by
  simp [findList_eq h]

theorem findList_restsOn (h : s.Coherent) (hk : kind ≠ .readCommitted) {row : Row}
    (hr : row ∈ s.rows.lookupList finder) :
    (s.findList tx kind finder).2.RestsOn tx row.key (s.version row.key) := by
  rw [findList_eq h]
  exact (h.record _).foldl_observe_restsOn hk hr

theorem stale?_eq_none_iff :
    s.stale? tx = none ↔ ∀ key v, (key, v) ∈ s.observed tx → s.version key = v := by
  simp [stale?]

-- A commit is accepted exactly if every version that its transaction has seen is the current one.
theorem commit_eq (h : s.Coherent) :
    s.commit tx changes = match s.stale? tx with
      | some key => (.error (.stale key), s)
      | none => (.ok (), (changes.foldl apply s).record (.commit tx changes.length)) :=
  guarded_of_quiet (h.quiet .commit)

-- A commit is accepted exactly if the versions that its transaction has observed have stayed.
theorem commit_eq_ok_iff (h : s.Coherent) :
    (s.commit tx changes).1 = .ok () ↔ ∀ key v, (key, v) ∈ s.observed tx → s.version key = v := by
  rw [commit_eq h, ← stale?_eq_none_iff]
  split <;> simp_all

theorem commit_of_ok (h : s.Coherent) (hok : (s.commit tx changes).1 = .ok ()) :
    (s.commit tx changes).2 = (changes.foldl apply s).record (.commit tx changes.length) := by
  rw [commit_eq h] at hok ⊢
  split <;> simp_all

theorem commit_of_error (h : s.Coherent) {refusal : CommitRefusal}
    (hr : (s.commit tx changes).1 = .error refusal) :
    (s.commit tx changes).2 = s ∧ ∃ key, refusal = .stale key := by
  rw [commit_eq h] at hr ⊢
  split at hr
  case h_1 key hs => cases hr; simp
  case h_2 => cases hr

-- What an accepted commit rests on has not changed since it was seen.
theorem RestsOn.version_eq {version : Nat} (hr : s.RestsOn tx key version) (h : s.Coherent)
    (hok : (s.commit tx changes).1 = .ok ()) : s.version key ≤ version :=
  have ⟨v, hv, hm⟩ := hr
  (commit_eq_ok_iff h).mp hok key v hm ▸ hv

theorem Later.record (s : Store) (event : Event) : s.Later (s.record event) :=
  .of_eq rfl rfl fun _ _ h => h

theorem Coherent.apply (h : s.Coherent) (change : Change) : (s.apply change).Coherent where
  quiet := by simpa using h.quiet
  observed_le hm := (h.observed_le (by simpa using hm)).trans (s.version_le_apply ..)

theorem Coherent.foldl_apply (h : s.Coherent) (changes : List Change) :
    (changes.foldl Store.apply s).Coherent := by
  induction changes generalizing s
  case nil => exact h
  case cons change changes ih => exact ih (h.apply change)

-- A call leaves a store that comes later, and that is coherent again.
theorem Coherent.answer (h : s.Coherent) (call : Call) :
    s.Later (s.answer call).2 ∧ (s.answer call).2.Coherent := by
  cases call
  case begin =>
    simp only [Store.answer, begin_eq h]
    exact ⟨.of_eq rfl rfl fun _ _ hm => hm, h.of_eq rfl rfl rfl⟩
  case find tx kind finder =>
    simp only [Store.answer, find_eq h]
    split
    case h_1 key _ =>
      exact ⟨(Later.record ..).trans (.of_eq (by simp) (by simp) fun _ _ => mem_observe_of_mem),
        (h.record _).observe tx kind key⟩
    case h_2 => exact ⟨.record .., h.record _⟩
  case findList tx kind finder =>
    simp only [Store.answer, findList_eq h]
    exact ⟨(Later.record ..).trans (.of_eq (by simp) (by simp) fun _ _ => mem_foldl_observe_of_mem),
      (h.record _).foldl_observe⟩
  case probe tx finder => exact ⟨.record .., h.record _⟩
  case commit tx changes =>
    simp only [Store.answer, commit_eq h]
    split
    case h_1 => exact ⟨.refl s, h⟩
    case h_2 =>
      exact ⟨(Later.foldl_apply s changes).trans (.record ..),
        (h.foldl_apply changes).record _⟩
  case rollback tx =>
    simp only [Store.answer, rollback_eq h]
    exact ⟨.record .., h.record _⟩

-- Only a commit that is accepted changes rows and versions.
theorem Coherent.answer_same (h : s.Coherent) (call : Call) :
    ((s.answer call).2.rows = s.rows ∧ (s.answer call).2.version = s.version) ∨
      ∃ tx changes, call = .commit tx changes ∧ (s.commit tx changes).1 = .ok () := by
  cases call
  case begin => exact .inl (by rw [Store.answer, begin_eq h]; exact ⟨rfl, rfl⟩)
  case find => exact .inl ⟨find_rows h, find_version h⟩
  case findList => exact .inl ⟨findList_rows h, by simp [Store.answer, findList_eq h]⟩
  case probe => exact .inl ⟨rfl, rfl⟩
  case commit tx changes =>
    cases hres : (s.commit tx changes).1
    case ok => exact .inr ⟨tx, changes, rfl, hres⟩
    case error refusal =>
      have hsame := (commit_of_error h hres).1
      exact .inl ⟨congrArg rows hsame, congrArg version hsame⟩
  case rollback tx => exact .inl (by rw [Store.answer, rollback_eq h]; exact ⟨rfl, rfl⟩)

-- The transaction that a lookup under a lock is made for.
def Call.reader? : Call → Option TxId
  | .find tx .. | .findList tx .. => some tx
  | _ => none

-- Only a transaction's own lookups make it observe a version, which is the current one.
theorem Coherent.answer_observed (h : s.Coherent) {call : Call} {t : TxId} {read : Key × Nat}
    (hm : read ∈ (s.answer call).2.observed t) :
    read ∈ s.observed t ∨ call.reader? = some t ∧ read.2 = s.version read.1 := by
  cases call
  case begin => exact .inl (by rwa [Store.answer, begin_eq h] at hm)
  case find tx kind finder =>
    exact (eq_or_mem_of_mem_find h hm).imp_right fun ⟨ht, _, hv⟩ => ⟨congrArg some ht.symm, hv⟩
  case findList tx kind finder =>
    rw [Store.answer, findList_eq h] at hm
    exact (eq_or_mem_of_mem_foldl_observe hm).imp_right fun ⟨ht, hv⟩ => ⟨congrArg some ht.symm, hv⟩
  case probe => exact .inl hm
  case commit tx changes =>
    refine .inl ?_
    cases hres : (s.commit tx changes).1
    case ok => simpa [Store.answer, commit_of_ok h hres, record] using hm
    case error => rwa [Store.answer, (commit_of_error h hres).1] at hm
  case rollback => exact .inl (by rwa [Store.answer, rollback_eq h] at hm)

theorem Coherent.begun_le_answer (h : s.Coherent) (call : Call) :
    s.begun ≤ (s.answer call).2.begun := by
  cases call
  case begin =>
    rw [Store.answer, begin_eq h]
    exact s.begun.le_succ
  case find =>
    rw [Store.answer, find_eq h]
    split <;> simp
  case findList => simp [Store.answer, findList_eq h]
  case probe => exact le_rfl
  case commit tx changes =>
    cases hres : (s.commit tx changes).1
    case ok => simp [Store.answer, commit_of_ok h hres]
    case error => rw [Store.answer, (commit_of_error h hres).1]
  case rollback =>
    rw [Store.answer, rollback_eq h]
    exact le_rfl

-- A transaction that is still to begin has not seen anything.
def Fresh (s : Store) : Prop :=
  ∀ tx read, read ∈ s.observed tx → tx ≤ s.begun

theorem Fresh.new : Store.new.Fresh :=
  fun _ _ h => by cases h

theorem Fresh.answer (hs : s.Fresh) (h : s.Coherent) {call : Call}
    (hcall : ∀ tx, call.reader? = some tx → tx ≤ s.begun) : (s.answer call).2.Fresh := by
  intro tx read hm
  refine le_trans ?_ (h.begun_le_answer call)
  obtain hm | ⟨htx, -⟩ := h.answer_observed hm
  · exact hs tx read hm
  · exact hcall tx htx

end Store

end NamespaceService
