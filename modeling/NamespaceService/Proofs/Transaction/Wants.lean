import NamespaceService.Proofs.Transaction.Tracking

namespace NamespaceService

namespace Want

variable {want : Want} {kind : LockKind} {mode : NodeMode} {here path : Position}
  {paths : List Position}

-- The position is locked at this kind, or more strongly.
def Covers (want : Want) (kind : LockKind) : Prop :=
  ∃ k, want.kind = some k ∧ kind ≤ k

-- The position is locked at this kind at most, unless that depends on the node.
def Allows (want : Want) (kind : LockKind) : Prop :=
  want.typedLeaf ∨ want.Covers kind

theorem Allows.mono {k : LockKind} (h : want.Allows kind) (hle : k ≤ kind) : want.Allows k :=
  h.imp_right fun ⟨held, hheld, hkind⟩ => ⟨held, hheld, LockKind.le_trans hle hkind⟩

-- The version of what is found at the position is observed.
def Strong (want : Want) : Prop :=
  want.typedLeaf ∨ want.Covers .read

theorem le_max_left (a b : LockKind) : a ≤ max a b := by
  cases a <;> cases b <;> decide

theorem le_max_right (a b : LockKind) : b ≤ max a b := by
  cases a <;> cases b <;> decide

theorem covers_orKind (want : Want) (kind : LockKind) : (want.orKind kind).Covers kind := by
  rw [orKind]
  split
  case h_1 k _ => exact ⟨_, rfl, le_max_right k kind⟩
  case h_2 => exact ⟨kind, rfl, LockKind.le_refl kind⟩

theorem Covers.orKind {k : LockKind} (h : want.Covers k) (kind : LockKind) :
    (want.orKind kind).Covers k := by
  obtain ⟨held, hk, hle⟩ := h
  rw [Want.orKind, hk]
  exact ⟨_, rfl, LockKind.le_trans hle (le_max_left held kind)⟩

-- The kind that is settled on is at least as strong as all that it is made of.
theorem le_of_orKind {k : LockKind} (hk : (want.orKind kind).kind = some k) :
    kind ≤ k ∧ ∀ weaker, want.Covers weaker → weaker ≤ k := by
  have ⟨held, hheld, hle⟩ := want.covers_orKind kind
  cases hk.symm.trans hheld
  refine ⟨hle, fun weaker hcovers => ?_⟩
  have ⟨held', hheld', hle'⟩ := hcovers.orKind kind
  cases hk.symm.trans hheld'
  exact hle'

@[simp]
theorem orKind_typedLeaf : (want.orKind kind).typedLeaf = want.typedLeaf := by
  rw [orKind]
  split <;> rfl

theorem Covers.addPath (h : want.Covers kind) : (want.addPath mode here path).Covers kind := by
  rw [Want.addPath]
  split
  case isTrue => exact h
  case isFalse =>
    split
    case isTrue => exact h
    case isFalse => exact h.orKind _

theorem typedLeaf_addPath (h : want.typedLeaf) : (want.addPath mode here path).typedLeaf := by
  rw [addPath]
  split
  case isTrue => exact h
  case isFalse =>
    split
    case isTrue => rfl
    case isFalse => simpa using h

theorem Covers.foldl (h : want.Covers kind) : (paths.foldl (Want.addPath mode here) want).Covers kind := by
  induction paths generalizing want
  case nil => exact h
  case cons path paths ih => exact ih h.addPath

theorem typedLeaf_foldl (h : want.typedLeaf) :
    (paths.foldl (addPath mode here) want).typedLeaf := by
  induction paths generalizing want
  case nil => exact h
  case cons path paths ih => exact ih (typedLeaf_addPath h)

-- What a path wants at a position on it, it gets.
theorem foldl_covers (hpath : path ∈ paths) (hon : here <+: path)
    (hleaf : ¬(here = path ∧ here ≠ [] ∧ mode = .writeOnParent)) :
    (paths.foldl (addPath mode here) want).Covers
      (mode.kindAt here.length (path.length + 1) false) := by
  induction paths generalizing want
  case nil => cases hpath
  case cons first paths ih =>
    obtain rfl | hpath := List.mem_cons.mp hpath
    · rw [List.foldl_cons]
      refine Covers.foldl ?_
      rw [addPath, if_neg (by simpa using hon), if_neg hleaf]
      exact covers_orKind ..
    · exact ih hpath

theorem foldl_typedLeaf (hpath : here ∈ paths) (hne : here ≠ []) :
    (paths.foldl (addPath .writeOnParent here) want).typedLeaf := by
  induction paths generalizing want
  case nil => cases hpath
  case cons first paths ih =>
    obtain rfl | hpath := List.mem_cons.mp hpath
    · rw [List.foldl_cons]
      refine typedLeaf_foldl ?_
      rw [addPath, if_neg (by simp), if_pos ⟨rfl, hne, rfl⟩]
    · exact ih hpath

theorem mode_of_typedLeaf (h : (paths.foldl (addPath mode here) want).typedLeaf)
    (hwant : want.typedLeaf = false) : mode = .writeOnParent ∧ here ≠ [] := by
  induction paths generalizing want
  case nil => rw [List.foldl_nil, hwant] at h; cases h
  case cons first paths ih =>
    rw [List.foldl_cons] at h
    by_cases hleaf : mode = .writeOnParent ∧ here ≠ []
    case pos => exact hleaf
    case neg =>
      refine ih h ?_
      rw [addPath]
      split
      case isTrue => exact hwant
      case isFalse =>
        split
        case isTrue hc => exact absurd ⟨hc.2.2, hc.2.1⟩ hleaf
        case isFalse => simpa using hwant

-- Nothing on the way to a path goes unwanted.
theorem ofPaths_wanted (hpath : path ∈ paths) (hon : here <+: path) :
    (ofPaths mode paths here).typedLeaf ∨ ∃ kind, (ofPaths mode paths here).kind = some kind := by
  by_cases hleaf : here = path ∧ here ≠ [] ∧ mode = .writeOnParent
  case pos =>
    obtain ⟨rfl, hne, rfl⟩ := hleaf
    exact .inl (foldl_typedLeaf hpath hne)
  case neg =>
    obtain ⟨k, hk, -⟩ : (ofPaths mode paths here).Covers _ := foldl_covers hpath hon hleaf
    exact .inr ⟨k, hk⟩

theorem kindAt_leaf (level : Nat) (isDirectory : Bool) : mode.kindAt level (level + 1) isDirectory =
    if level = 0 then mode.requestedKind else mode.leafKind isDirectory := by
  rw [NodeMode.kindAt, if_pos (by omega)]

theorem ofPaths_leaf_strong (hpath : path ∈ paths) (hmode : mode ≠ .readCommitted) :
    (ofPaths mode paths path).Strong := by
  by_cases hleaf : path = path ∧ path ≠ [] ∧ mode = .writeOnParent
  case pos =>
    obtain ⟨-, hne, rfl⟩ := hleaf
    exact .inl (foldl_typedLeaf hpath hne)
  case neg =>
    obtain ⟨k, hk, hle⟩ : (ofPaths mode paths path).Covers _ :=
      foldl_covers hpath (List.prefix_refl path) hleaf
    refine .inr ⟨k, hk, LockKind.le_trans ?_ hle⟩
    rw [kindAt_leaf]
    cases mode <;> split <;> first | decide | contradiction

theorem ofPaths_leaf_read (hpath : path ∈ paths) : (ofPaths .read paths path).Covers .read := by
  have hcovers : (ofPaths .read paths path).Covers _ :=
    foldl_covers hpath (List.prefix_refl path) (by simp)
  rwa [kindAt_leaf, show (if path.length = 0 then NodeMode.read.requestedKind
    else NodeMode.read.leafKind false) = .read by split <;> rfl] at hcovers

theorem ofPaths_leaf_write (hpath : path ∈ paths) : (ofPaths .write paths path).Covers .write := by
  have hcovers : (ofPaths .write paths path).Covers _ :=
    foldl_covers hpath (List.prefix_refl path) (by simp)
  rwa [kindAt_leaf, show (if path.length = 0 then NodeMode.write.requestedKind
    else NodeMode.write.leafKind false) = .write by split <;> rfl] at hcovers

theorem ofPaths_parent_write (hpath : path ∈ paths) (hne : path ≠ []) :
    (ofPaths .writeOnParent paths path.dropLast).Covers .write := by
  have hlength : 0 < path.length := List.length_pos_iff.mpr hne
  have hdrop : path.dropLast.length = path.length - 1 := List.length_dropLast
  have hcovers : (ofPaths .writeOnParent paths path.dropLast).Covers _ :=
    foldl_covers hpath (List.dropLast_prefix path) fun h => by
      have := congrArg List.length h.1
      omega
  rwa [NodeMode.kindAt, if_neg (by omega), if_pos ⟨rfl, by omega⟩] at hcovers

-- The directories above the one that an entry is made in are not kept from changing.
theorem ofPaths_above (hon : here <+: path.dropLast) (hne : here ≠ path.dropLast) :
    ofPaths .writeOnParent [path] here = ⟨some .readCommitted, false⟩ := by
  have hlength : here.length < path.length - 1 := by
    have hle := hon.length_le
    rw [List.length_dropLast] at hle
    refine lt_of_le_of_ne hle fun heq => hne (hon.eq_of_length ?_)
    rw [heq, List.length_dropLast]
  have hprefix : here.isPrefixOf path := by
    simpa using hon.trans (List.dropLast_prefix path)
  have hleaf : here ≠ path := fun heq => by
    rw [heq] at hlength
    omega
  have hkind : NodeMode.writeOnParent.kindAt here.length (path.length + 1) false =
      .readCommitted := by
    rw [NodeMode.kindAt, if_neg (by omega), if_neg (by simp; omega)]
  simp [ofPaths, addPath, hprefix, hleaf, orKind, nothing, hkind]

end Want

end NamespaceService
