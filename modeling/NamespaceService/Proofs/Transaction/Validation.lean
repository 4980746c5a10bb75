import Mathlib.Data.List.Sort
import NamespaceService.Proofs.Transaction.Holdings

namespace NamespaceService

namespace Timeline

variable {σ : Timeline} {tx : TxId} {changes : List Change} {t₀ t u n τ : Nat} {key : Key} {row : Row}

-- The commit of step `n` is accepted.
def Accepts (σ : Timeline) (n : Nat) (tx : TxId) (changes : List Change) : Prop :=
  σ.Answers n (.store (.commit tx changes)) (.ok ())

theorem Accepts.commit_eq (h : σ.Accepts n tx changes) :
    (σ.store n).commit tx changes = (.ok (), σ.store (n + 1)) :=
  h.2

theorem Accepts.rows (h : σ.Accepts n tx changes) :
    σ.rows (n + 1) = changes.foldl Rows.apply (σ.rows n) := by
  have hok : ((σ.store n).commit tx changes).1 = .ok () := congrArg Prod.fst h.commit_eq
  have hnext : ((σ.store n).commit tx changes).2 = σ.store (n + 1) := congrArg Prod.snd h.commit_eq
  rw [Timeline.rows, ← hnext, Store.commit_of_ok (σ.coherent n) hok, Store.record_rows,
    Store.foldl_apply_rows]
  rfl

theorem Rests.version_eq (h : σ.Rests tx u key τ) (hok : σ.Accepts n tx changes) (hu : u ≤ n)
    (hτ : τ ≤ n) : σ.version n key = σ.version τ key := by
  have hle := Store.RestsOn.version_eq (h.mono hu) (σ.coherent n) (congrArg Prod.fst hok.commit_eq)
  exact Nat.le_antisymm hle ((σ.later hτ).version_le key)

theorem Rests.find?_eq (h : σ.Rests tx u key τ) (hok : σ.Accepts n tx changes) (hu : u ≤ n)
    (hτ : τ ≤ n) : (σ.rows n).find? key = (σ.rows τ).find? key :=
  (σ.later hτ).find?_eq (h.version_eq hok hu hτ)

theorem Rests.mem (h : σ.Rests tx u row.key τ) (hok : σ.Accepts n tx changes) (hu : u ≤ n)
    (hτ : τ ≤ n) (hrow : row ∈ (σ.rows τ).toList) : row ∈ (σ.rows n).toList := by
  rw [SortedBy.mem_iff_find?, h.find?_eq hok hu hτ]
  exact SortedBy.find?_of_mem hrow

-- What is under the key now was there then.
theorem Rests.mem_of_owner (h : σ.Rests tx u key τ) (hok : σ.Accepts n tx changes) (hu : u ≤ n)
    (hτ : τ ≤ n) (hrow : row ∈ (σ.rows n).toList) (howner : row.owner? = some key) :
    row ∈ (σ.rows τ).toList :=
  (σ.later hτ).mem_of_owner (h.version_eq hok hu hτ) hrow howner

end Timeline

theorem Row.owner?_of_isEntryOf {n : Node} {dir : NodeId} (h : n.isEntryOf dir) :
    (Row.node n).owner? = some (.node dir) := by
  have ⟨hroot, hparent⟩ : n.isRoot = false ∧ n.parent = dir := by simpa [Node.isEntryOf] using h
  simp [owner?, hroot, hparent]

theorem Row.owner?_of_lists {row : Row} {id : NodeId} {finder : Finder}
    (hfinder : finder = .children id ∨ finder = .blocksOf id) (h : finder.lists row) :
    row.owner? = some (.node id) := by
  obtain rfl | rfl := hfinder
  · cases row
    case node n => exact owner?_of_isEntryOf (by simpa [Finder.lists] using h)
    all_goals simp [Finder.lists] at h
  · cases row
    case block b => simpa [Finder.lists, owner?] using h
    all_goals simp [Finder.lists] at h

-- A list is given by its rows, for they are in order.
theorem Rows.lookupList_congr {rows rows' : Rows} {finder : Finder}
    (h : ∀ row, row ∈ rows.lookupList finder ↔ row ∈ rows'.lookupList finder) :
    rows.lookupList finder = rows'.lookupList finder := by
  have : Std.Antisymm fun a b : Row => Ranked.Before a.key b.key :=
    ⟨fun _ _ hab hba => absurd hba hab.asymm⟩
  have : Std.Irrefl fun a b : Row => Ranked.Before a.key b.key := ⟨fun _ => Ranked.Before.irrefl _⟩
  exact (rows.sorted.filter _).eq_of_mem_iff (rows'.sorted.filter _) h

namespace Timeline

open Context

variable {σ : Timeline} {tx : TxId} {changes : List Change} {t₀ t u n τ : Nat} {c : Context}
  {kind : LockKind} {finder : Finder} {dir : NodeId} {name : String} {m : Node}

-- A name that was free in a directory is still free.
theorem Rests.lookup_nodeNamed (h : σ.Rests tx u (.node dir) τ) (hok : σ.Accepts n tx changes)
    (hu : u ≤ n) (hτ : τ ≤ n) (hfree : (σ.rows τ).lookup (.nodeNamed dir name) = none) :
    (σ.rows n).lookup (.nodeNamed dir name) = none := by
  refine Rows.lookup_eq_none_iff.mpr fun row hrow => ?_
  by_contra hsel
  have hsel : (Finder.nodeNamed dir name).selects row := by simpa using hsel
  have ⟨m, hm, hentry, _⟩ := Finder.selects_nodeNamed hsel
  have howner := hm ▸ Row.owner?_of_isEntryOf hentry
  have := Rows.lookup_eq_none_iff.mp hfree row (h.mem_of_owner hok hu hτ hrow howner)
  exact absurd hsel (by simp [this])

-- An entry that is still there has stayed the first one of its name.
theorem Rests.lookup_nodeNamed_some {row : Row} (h : σ.Rests tx u (.node dir) τ)
    (hok : σ.Accepts n tx changes) (hu : u ≤ n) (hτ : τ ≤ n)
    (hfound : (σ.rows τ).lookup (.nodeNamed dir name) = some row) (hrow : row ∈ (σ.rows n).toList) :
    (σ.rows n).lookup (.nodeNamed dir name) = some row := by
  have ⟨_, hsel, hfirst⟩ := Rows.lookup_eq_some_iff.mp hfound
  refine Rows.lookup_eq_some_iff.mpr ⟨hrow, hsel, fun r hr hr' => hfirst r ?_ hr'⟩
  have ⟨m, hm, hentry, _⟩ := Finder.selects_nodeNamed hr'
  exact h.mem_of_owner hok hu hτ hr (hm ▸ Row.owner?_of_isEntryOf hentry)

theorem lookup_of_lookedUp {found : Option Row} {key : Key}
    (h : LookedUp σ t₀ u c kind finder found) (hkey : finder.key? = some key)
    (hkind : kind ≠ .readCommitted) (hok : σ.Accepts n c.tx changes) (hu : u ≤ n) :
    found = (σ.rows n).lookup finder := by
  have ⟨τ, _, hτ, hfound, hrests⟩ := h.seen
  rw [hfound, Rows.lookup_of_key? hkey, Rows.lookup_of_key? hkey]
  exact ((hrests key hkey hkind).find?_eq hok hu (hτ.trans hu)).symm

-- A list of what belongs to a node can only have lost rows.
theorem lookupList_subset {found : List Row} (h : Listed σ t₀ u c kind finder m found)
    (hfinder : finder = .children m.id ∨ finder = .blocksOf m.id) (hok : σ.Accepts n c.tx changes)
    (hu : u ≤ n) {row : Row} (hrow : row ∈ (σ.rows n).lookupList finder) : row ∈ found := by
  have ⟨τ, _, hτ, hfound, _, hrests, _⟩ := h.seen
  have ⟨hmem, hlists⟩ := Rows.mem_lookupList_iff.mp hrow
  rw [hfound]
  refine Rows.mem_lookupList_iff.mpr ⟨?_, hlists⟩
  exact hrests.mem_of_owner hok hu (hτ.trans hu) hmem (Row.owner?_of_lists hfinder hlists)

theorem lookupList_of_listed {found : List Row} (h : Listed σ t₀ u c kind finder m found)
    (hfinder : finder = .children m.id ∨ finder = .blocksOf m.id) (hkind : kind ≠ .readCommitted)
    (hok : σ.Accepts n c.tx changes) (hu : u ≤ n) : found = (σ.rows n).lookupList finder := by
  have ⟨τ, _, hτ, hfound, _, _, hrows⟩ := h.seen
  rw [hfound]
  refine Rows.lookupList_congr fun row => ⟨fun hrow => ?_, fun hrow => ?_⟩
  · have ⟨hmem, hlists⟩ := Rows.mem_lookupList_iff.mp hrow
    refine Rows.mem_lookupList_iff.mpr ⟨?_, hlists⟩
    exact (hrows row (hfound ▸ hrow) hkind).mem hok hu (hτ.trans hu) hmem
  · exact hfound ▸ lookupList_subset h hfinder hok hu hrow

end Timeline

-- What a walk has locked strongly is still there.
theorem Action.Survey.present {σ : Timeline} {t₀ u n : Nat} {c : Context} {changes : List Change}
    {wants : Position → Want} {locked : LockedAt} {done : List Position} {p : Position} {m : Node}
    (h : Survey σ t₀ u c wants locked done) (hok : σ.Accepts n c.tx changes) (hu : u ≤ n)
    (hm : locked p = some m) (hstrong : (wants p).Strong) : .node m ∈ (σ.rows n).toList := by
  have ⟨τ, _, hτ, hmem, hrests⟩ := (h.placed hm).seen
  exact (hrests hstrong).mem hok hu (hτ.trans hu) hmem

end NamespaceService
