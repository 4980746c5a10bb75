import NamespaceService.Proofs.Transaction.Wants

namespace NamespaceService

namespace LockKind

variable {a b k : LockKind} {x y : Option LockKind}

theorem le_antisymm (hab : a ≤ b) (hba : b ≤ a) : a = b := by
  cases a <;> cases b <;> first | rfl | exact absurd hab (by decide) | exact absurd hba (by decide)

theorem le_max_iff : k ≤ max a b ↔ k ≤ a ∨ k ≤ b := by
  cases k <;> cases a <;> cases b <;> decide

theorem le_write (k : LockKind) : k ≤ .write := by
  cases k <;> decide

theorem ext_le (h : ∀ k, (∃ m, x = some m ∧ k ≤ m) ↔ ∃ m, y = some m ∧ k ≤ m) : x = y := by
  cases x
  case none =>
    cases y
    case none => rfl
    case some b => cases (h b).mpr ⟨b, rfl, le_refl b⟩ with | intro m hm => cases hm.1
  case some a =>
    obtain ⟨m, rfl, ham⟩ := (h a).mp ⟨a, rfl, le_refl a⟩
    obtain ⟨_, heq, hma⟩ := (h m).mpr ⟨m, rfl, le_refl m⟩
    cases heq
    rw [le_antisymm ham hma]

-- The strongest of some kinds is as strong as one of them, and no stronger.
theorem le_max?_iff {kinds : List LockKind} :
    (∃ m, kinds.max? = some m ∧ k ≤ m) ↔ ∃ a ∈ kinds, k ≤ a := by
  have hfold (kinds : List LockKind) (a : LockKind) :
      k ≤ kinds.foldl max a ↔ k ≤ a ∨ ∃ b ∈ kinds, k ≤ b := by
    induction kinds generalizing a
    case nil => simp
    case cons b kinds ih => simp [ih, le_max_iff, or_assoc]
  cases kinds
  case nil => simp
  case cons a kinds => simp [List.max?_cons', hfold]

end LockKind

namespace NodeMode

-- The strongest kind that the paths through a position need for the node there.
def strongest? (mode : NodeMode) (paths : List Position) (here : Position) (isDirectory : Bool) :
    Option LockKind :=
  ((paths.filter (here.isPrefixOf ·)).map fun path =>
    mode.kindAt here.length (path.length + 1) isDirectory).max?

variable {mode : NodeMode} {paths paths' : List Position} {here path : Position} {isDirectory : Bool}
  {kind : LockKind}

theorem le_strongest?_iff : (∃ m, mode.strongest? paths here isDirectory = some m ∧ kind ≤ m) ↔
    ∃ path ∈ paths, here <+: path ∧ kind ≤ mode.kindAt here.length (path.length + 1) isDirectory := by
  rw [strongest?, LockKind.le_max?_iff]
  simp [and_assoc]

theorem exists_strongest? (hpath : path ∈ paths) (hon : here <+: path) :
    ∃ kind, mode.strongest? paths here isDirectory = some kind :=
  have ⟨kind, hkind, _⟩ := le_strongest?_iff.mpr ⟨path, hpath, hon, LockKind.le_refl _⟩
  ⟨kind, hkind⟩

theorem strongest?_congr (h : ∀ path, path ∈ paths ↔ path ∈ paths') :
    mode.strongest? paths here isDirectory = mode.strongest? paths' here isDirectory :=
  LockKind.ext_le fun k => by simp only [le_strongest?_iff, h]

-- Only at the end of a path does the kind depend on what is there, and the root is a directory.
theorem kindAt_eq_of_above {level levels : Nat} (h : level + 1 ≠ levels ∨ level = 0 ∨
    mode ≠ .writeOnParent) (b b' : Bool) : mode.kindAt level levels b = mode.kindAt level levels b' := by
  rw [kindAt, kindAt]
  split
  case isFalse => rfl
  case isTrue hend =>
    split
    case isTrue => rfl
    case isFalse hbelow =>
      cases mode
      case writeOnParent =>
        obtain hne | hzero | hmode := h
        · omega
        · exact absurd hzero hbelow
        · exact absurd rfl hmode
      all_goals rfl

end NodeMode

namespace Want

variable {want : Want} {mode : NodeMode} {paths paths' : List Position} {here path : Position}
  {kind k : LockKind} {isDirectory : Bool}

def kindOn (mode : NodeMode) (want : Want) (level : Nat) (isDirectory : Bool) : Option LockKind :=
  if want.typedLeaf ∧ want.kind ≠ some .write then
    (want.orKind (mode.kindAt level (level + 1) isDirectory)).kind
  else want.kind

-- Whether the position is the end of the path, and below a directory that is locked for writing.
def EndsTyped (mode : NodeMode) (here path : Position) : Prop :=
  here = path ∧ here ≠ [] ∧ mode = .writeOnParent

theorem covers_orKind_iff : (want.orKind kind).Covers k ↔ want.Covers k ∨ k ≤ kind := by
  rw [orKind]
  split
  case h_1 held hheld => simp [Covers, hheld, LockKind.le_max_iff]
  case h_2 hnone => simp [Covers, hnone]

theorem foldl_covers_iff : (paths.foldl (addPath mode here) want).Covers k ↔ want.Covers k ∨
    ∃ path ∈ paths, here <+: path ∧ ¬EndsTyped mode here path ∧
      k ≤ mode.kindAt here.length (path.length + 1) false := by
  induction paths generalizing want
  case nil => simp
  case cons first paths ih =>
    have hfirst : (want.addPath mode here first).Covers k ↔ want.Covers k ∨
        here <+: first ∧ ¬EndsTyped mode here first ∧
          k ≤ mode.kindAt here.length (first.length + 1) false := by
      rw [addPath]
      split
      case isTrue hoff =>
        refine (or_iff_left fun h => ?_).symm
        simp [List.isPrefixOf_iff_prefix.mpr h.1] at hoff
      case isFalse hon =>
        have hon : here <+: first := by simpa using hon
        split
        case isTrue htyped => exact (or_iff_left fun h => h.2.1 htyped).symm
        case isFalse htyped => simp [covers_orKind_iff, EndsTyped, hon, htyped]
    simp [ih, hfirst, or_assoc]

theorem foldl_typedLeaf_iff : (paths.foldl (addPath mode here) want).typedLeaf ↔ want.typedLeaf ∨
    ∃ path ∈ paths, EndsTyped mode here path := by
  induction paths generalizing want
  case nil => simp
  case cons first paths ih =>
    have hfirst : (want.addPath mode here first).typedLeaf ↔ want.typedLeaf ∨
        EndsTyped mode here first := by
      rw [addPath]
      split
      case isTrue hoff =>
        have hne : ¬EndsTyped mode here first := by
          rintro ⟨rfl, -, -⟩
          simp [List.isPrefixOf_iff_prefix.mpr (List.prefix_refl here)] at hoff
        simp [hne]
      case isFalse =>
        split
        case isTrue htyped => simp [show EndsTyped mode here first from htyped]
        case isFalse htyped => simp [show ¬EndsTyped mode here first from htyped]
    simp [ih, hfirst, or_assoc]

theorem not_covers_nothing : ¬nothing.Covers k := by
  rintro ⟨_, h, -⟩
  cases h

-- A walk settles on the strongest kind that a path through the position needs for the node there.
theorem kindOn_ofPaths :
    (ofPaths mode paths here).kindOn mode here.length isDirectory =
      mode.strongest? paths here isDirectory := by
  have hcovers (k : LockKind) : (ofPaths mode paths here).Covers k ↔ ∃ path ∈ paths, here <+: path ∧
      ¬EndsTyped mode here path ∧ k ≤ mode.kindAt here.length (path.length + 1) false :=
    foldl_covers_iff.trans (or_iff_right not_covers_nothing)
  have htyped : (ofPaths mode paths here).typedLeaf ↔ ∃ path ∈ paths, EndsTyped mode here path :=
    foldl_typedLeaf_iff.trans (or_iff_right Bool.false_ne_true)
  -- A path that goes on, or has no typed end, needs the same of every node.
  have hplain {path : Position} (hon : here <+: path) (hnot : ¬EndsTyped mode here path) :
      mode.kindAt here.length (path.length + 1) false =
        mode.kindAt here.length (path.length + 1) isDirectory := by
    refine NodeMode.kindAt_eq_of_above ?_ _ _
    by_contra! h
    exact hnot ⟨hon.eq_of_length (by omega), fun hnil => h.2.1 (by simp [hnil]), h.2.2⟩
  refine LockKind.ext_le fun k => ?_
  rw [NodeMode.le_strongest?_iff]
  by_cases hwrite : (ofPaths mode paths here).typedLeaf ∧ (ofPaths mode paths here).kind ≠ some .write
  case pos =>
    obtain ⟨_, hhere, rfl, -, -⟩ := htyped.mp hwrite.1
    rw [kindOn, if_pos hwrite]
    change (orKind _ _).Covers k ↔ _
    rw [covers_orKind_iff, hcovers]
    constructor
    case mp =>
      rintro (⟨path, hpath, hon, hnot, hle⟩ | hle)
      · exact ⟨path, hpath, hon, hplain hon hnot ▸ hle⟩
      · exact ⟨here, hhere, List.prefix_refl here, hle⟩
    case mpr =>
      rintro ⟨path, hpath, hon, hle⟩
      by_cases hnot : EndsTyped mode here path
      case pos =>
        obtain ⟨rfl, -, -⟩ := hnot
        exact .inr hle
      case neg => exact .inl ⟨path, hpath, hon, hnot, hplain hon hnot ▸ hle⟩
  case neg =>
    rw [kindOn, if_neg hwrite]
    change Covers _ k ↔ _
    constructor
    case mp =>
      intro h
      obtain ⟨path, hpath, hon, hnot, hle⟩ := (hcovers k).mp h
      exact ⟨path, hpath, hon, hplain hon hnot ▸ hle⟩
    case mpr =>
      rintro ⟨path, hpath, hon, hle⟩
      by_cases hnot : EndsTyped mode here path
      case pos =>
        have hkind : (ofPaths mode paths here).kind = some .write := by
          by_contra hne
          exact hwrite ⟨htyped.mpr ⟨path, hpath, hnot⟩, hne⟩
        exact ⟨.write, hkind, LockKind.le_write k⟩
      case neg => exact (hcovers k).mpr ⟨path, hpath, hon, hnot, hplain hon hnot ▸ hle⟩

-- What paths want of a position depends on which paths they are, and on nothing else.
theorem ofPaths_congr (h : ∀ path, path ∈ paths ↔ path ∈ paths') :
    ofPaths mode paths here = ofPaths mode paths' here := by
  have hkind : (ofPaths mode paths here).kind = (ofPaths mode paths' here).kind := by
    refine LockKind.ext_le fun k => ?_
    change Covers _ k ↔ Covers _ k
    simp only [ofPaths, foldl_covers_iff, h]
  have htyped : (ofPaths mode paths here).typedLeaf = (ofPaths mode paths' here).typedLeaf := by
    rw [Bool.eq_iff_iff]
    simp only [ofPaths, foldl_typedLeaf_iff, h]
  cases hl : ofPaths mode paths here
  cases hr : ofPaths mode paths' here
  simp_all

end Want

end NamespaceService
