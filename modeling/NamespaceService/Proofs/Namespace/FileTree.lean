import Mathlib.Data.Set.Finite.Basic
import NamespaceService.Proofs.Namespace.Outcomes
import NamespaceService.Proofs.Namespace.Relocation

namespace NamespaceService

structure Entry where
  id : NodeId
  kind : NodeKind
  blocks : List BlockId
deriving DecidableEq

def Node.entry (n : Node) : Entry :=
  ⟨n.id, n.kind, n.blocks⟩

-- Directories and files at the places where they are, and the paths that each holder has leased.
@[ext]
structure FileTree where
  entry : Position → Option Entry
  leased : (holder path : String) → Prop
  root : entry [] = some Node.root.entry
  above {p : Position} {name : String} {e : Entry} : entry (p ++ [name]) = some e →
    ∃ dir, entry p = some dir ∧ dir.kind = .directory
  kind {p : Position} {e : Entry} : entry p = some e → e.kind = .directory ∨ e.kind = .file
  distinct {p q : Position} {d e : Entry} : entry p = some d → entry q = some e → d.id = e.id → p = q
  finite : {p | (entry p).isSome}.Finite

namespace FileTree

open Session

variable (t : FileTree)

def IsDirectory (p : Position) : Prop :=
  ∃ e, t.entry p = some e ∧ e.kind = .directory

def IsFile (p : Position) : Prop :=
  ∃ e, t.entry p = some e ∧ e.kind = .file

-- There is a directory, and nothing of the name in it.
def Free (p : Position) : Prop :=
  t.entry p = none ∧ p ≠ [] ∧ t.IsDirectory p.dropLast

-- A file, or an empty directory that is not the root.
def Removable (p : Position) : Prop :=
  p ≠ [] ∧ (t.IsFile p ∨ t.IsDirectory p ∧ ∀ name, t.entry (p ++ [name]) = none)

def Movable (start goal : Position) : Prop :=
  (t.entry start).isSome ∧ start ≠ [] ∧ goal ≠ [] ∧ ¬(start <+: goal ∧ start ≠ goal) ∧
    (goal = start ∨ t.Free goal)

-- The entries after the one at `start` was moved to `goal`, with all that is below it.
def move (start goal p : Position) : Option Entry :=
  if goal <+: p then t.entry (start ++ p.drop goal.length)
  else if start <+: p then none
  else t.entry p

-- The entry with its name and directory.
def node? (p : Position) : Option Node :=
  (t.entry p).map fun e => {
    id := e.id
    parent := ((t.entry p.dropLast).map Entry.id).getD .root
    name := p.getLast?.getD ""
    kind := e.kind
    blocks := e.blocks }

-- What an operation needs to succeed.
def Allows : NamespaceOperation → Prop
  | .makeDirectory path | .createFile path _ => ∃ p, Path.components path = .ok p ∧ t.Free p
  | .delete path => ∃ p, Path.components path = .ok p ∧ (t.entry p = none ∨ t.Removable p)
  | .rename source destination => ∃ start goal, Path.components source = .ok start ∧
    Path.components destination = .ok goal ∧ t.Movable start goal
  | .addBlock path holder => t.leased holder path ∧ ∃ p, Path.components path = .ok p ∧ t.IsFile p
  | .fileInfo path => ∃ p, Path.components path = .ok p
  | .listDirectory path => ∃ p, Path.components path = .ok p ∧ t.IsDirectory p

-- What an operation gives, and makes of the tree. One that is not allowed leaves it as it is.
inductive Step : NamespaceOperation → Except Stop Value → FileTree → Prop
  | makeDirectory {path : String} {p : Position} {id : NodeId} {t' : FileTree}
      (hp : Path.components path = .ok p) (hfree : t.Free p)
      (hentry : t'.entry = Function.update t.entry p (some ⟨id, .directory, []⟩))
      (hleased : t'.leased = t.leased) : Step (.makeDirectory path) (.ok (.id id)) t'
  | createFile {path holder : String} {p : Position} {id : NodeId} {t' : FileTree}
      (hp : Path.components path = .ok p) (hfree : t.Free p)
      (hentry : t'.entry = Function.update t.entry p (some ⟨id, .file, []⟩))
      (hleased : ∀ h q, t'.leased h q ↔ t.leased h q ∨ h = holder ∧ q = path) :
      Step (.createFile path holder) (.ok (.id id)) t'
  | delete {path : String} {p : Position} {t' : FileTree}
      (hp : Path.components path = .ok p) (hremovable : t.Removable p)
      (hentry : t'.entry = Function.update t.entry p none) (hleased : t'.leased = t.leased) :
      Step (.delete path) (.ok (.flag true)) t'
  | deleteMissing {path : String} {p : Position}
      (hp : Path.components path = .ok p) (hmissing : t.entry p = none) :
      Step (.delete path) (.ok (.flag false)) t
  | rename {source destination : String} {start goal : Position} {t' : FileTree}
      (hstart : Path.components source = .ok start)
      (hgoal : Path.components destination = .ok goal) (hmovable : t.Movable start goal)
      (hentry : t'.entry = t.move start goal) (hleased : t'.leased = t.leased) :
      Step (.rename source destination) (.ok .nothing) t'
  | addBlock {path holder : String} {p : Position} {e : Entry} {block : Block} {t' : FileTree}
      (hp : Path.components path = .ok p) (hfile : t.entry p = some e) (hkind : e.kind = .file)
      (hlease : t.leased holder path) (howner : block.owner = e.id)
      (hentry : t'.entry = Function.update t.entry p
        (some { e with blocks := e.blocks ++ [block.id] }))
      (hleased : t'.leased = t.leased) : Step (.addBlock path holder) (.ok (.block block)) t'
  | fileInfo {path : String} {p : Position} (hp : Path.components path = .ok p) :
      Step (.fileInfo path) (.ok (.node (t.node? p))) t
  | listDirectory {path : String} {p : Position} {names : List String}
      (hp : Path.components path = .ok p) (hdir : t.IsDirectory p)
      (hsorted : names.Pairwise Ranked.Before)
      (hnames : ∀ name, name ∈ names ↔ (t.entry (p ++ [name])).isSome) :
      Step (.listDirectory path) (.ok (.names names)) t
  | refused {op : NamespaceOperation} {failure : Failure} (h : ¬t.Allows op) :
      Step op (.error (.failed failure)) t

-- What is at the place has been removed, or moved with what is above it.
def Displaces (p : Position) : NamespaceOperation → Except Stop Value → Prop
  | .delete path, .ok (.flag removed) => removed ∧ Path.components path = .ok p
  | .rename source destination, .ok _ => ∃ start goal, Path.components source = .ok start ∧
    Path.components destination = .ok goal ∧ start <+: p ∧ goal ≠ start
  | _, _ => False

inductive Runs : FileTree → List NamespaceOperation → List (Except Stop Value) → FileTree → Prop
  | nil (t : FileTree) : Runs t [] [] t
  | cons {t t' t'' : FileTree} {op : NamespaceOperation} {result : Except Stop Value}
      {ops : List NamespaceOperation} {results : List (Except Stop Value)} (step : t.Step op result t')
      (rest : Runs t' ops results t'') : Runs t (op :: ops) (result :: results) t''

-- The root alone.
def new : FileTree where
  entry p := if p = [] then some Node.root.entry else none
  leased _ _ := False
  root := rfl
  above h := by simp at h
  kind h := by
    split at h
    case isTrue =>
      cases h
      exact .inl rfl
    case isFalse => cases h
  distinct {p q _ _} hp hq _ := by
    obtain rfl : p = [] := by
      by_contra hne
      simp [hne] at hp
    by_contra hne
    simp [Ne.symm hne] at hq
  finite := (Set.finite_singleton ([] : Position)).subset fun p hp => by
    by_contra hne
    have hne : p ≠ [] := hne
    simp [hne] at hp

variable {t t' : FileTree} {op : NamespaceOperation} {start goal : Position}

-- An operation succeeds exactly if the tree allows it.
theorem Step.isOk_iff {result : Except Stop Value} (h : t.Step op result t') :
    (∃ value, result = .ok value) ↔ t.Allows op := by
  cases h
  case refused h => exact iff_of_false (by simp) h
  all_goals refine iff_of_true ⟨_, rfl⟩ ?_
  case makeDirectory hp hfree _ _ => exact ⟨_, hp, hfree⟩
  case createFile hp hfree _ _ => exact ⟨_, hp, hfree⟩
  case delete hp hremovable _ _ => exact ⟨_, hp, .inr hremovable⟩
  case deleteMissing hp hmissing => exact ⟨_, hp, .inl hmissing⟩
  case rename hstart hgoal hmovable _ _ => exact ⟨_, _, hstart, hgoal, hmovable⟩
  case addBlock hp hfile hkind hlease _ _ _ => exact ⟨hlease, _, hp, _, hfile, hkind⟩
  case fileInfo hp => exact ⟨_, hp⟩
  case listDirectory hp hdir _ _ => exact ⟨_, hp, hdir⟩

-- Only making a file adds to what is leased.
theorem Step.leased_iff {result : Except Stop Value} {holder path : String}
    (h : t.Step op result t') : t'.leased holder path ↔
      t.leased holder path ∨ ∃ id, op = .createFile path holder ∧ result = .ok (.id id) := by
  cases h
  case createFile hleased => simp [hleased, eq_comm, and_comm]
  case makeDirectory hleased => simp [hleased]
  case delete hleased => simp [hleased]
  case rename hleased => simp [hleased]
  case addBlock hleased => simp [hleased]
  all_goals simp

theorem entry_of_update {p q : Position} {e : Entry} {found : Option Entry}
    (hentry : t'.entry = Function.update t.entry q found) (he : t'.entry p = some e) :
    found = some e ∨ t.entry p = some e := by
  rw [hentry, Function.update_apply] at he
  split at he
  case isTrue => exact .inl he
  case isFalse => exact .inr he

-- A file has been there before, if perhaps at another place, or it is the one that was made.
theorem Step.file_cases {result : Except Stop Value} {p : Position} {e : Entry}
    (h : t.Step op result t') (he : t'.entry p = some e) (hfile : e.kind = .file) :
    (∃ q d, t.entry q = some d ∧ d.kind = .file ∧ d.id = e.id) ∨
      ∃ path holder, op = .createFile path holder ∧ result = .ok (.id e.id) := by
  have hold {q : Position} (he : t.entry q = some e) :
      (∃ q d, t.entry q = some d ∧ d.kind = .file ∧ d.id = e.id) ∨
        ∃ path holder, op = .createFile path holder ∧ result = .ok (.id e.id) :=
    .inl ⟨q, e, he, hfile, rfl⟩
  cases h
  case makeDirectory q id hp hfree hentry hleased =>
    obtain hnew | he := t.entry_of_update hentry he
    · cases hnew
      cases hfile
    · exact hold he
  case createFile path holder q id hp hfree hentry hleased =>
    obtain hnew | he := t.entry_of_update hentry he
    · cases hnew
      exact .inr ⟨path, holder, rfl, rfl⟩
    · exact hold he
  case delete hp hremovable hentry hleased =>
    obtain hnew | he := t.entry_of_update hentry he
    · cases hnew
    · exact hold he
  case rename hstart hgoal hmovable hentry hleased =>
    rw [hentry, move] at he
    split at he
    case isTrue => exact hold he
    case isFalse =>
      split at he
      case isTrue => cases he
      case isFalse => exact hold he
  case addBlock d block hp hd hkind hlease howner hentry hleased =>
    obtain hnew | he := t.entry_of_update hentry he
    · cases hnew
      exact .inl ⟨_, d, hd, hkind, rfl⟩
    · exact hold he
  all_goals exact hold he

theorem Step.created {path holder : String} {id : NodeId} {p : Position}
    (h : t.Step (.createFile path holder) (.ok (.id id)) t') (hp : Path.components path = .ok p) :
    t'.entry p = some ⟨id, .file, []⟩ := by
  cases h
  case createFile q hfree hp' hleased hentry =>
    cases hp.symm.trans hp'
    rw [hentry, Function.update_self]

theorem Step.appended {path holder : String} {block : Block}
    (h : t.Step (.addBlock path holder) (.ok (.block block)) t') : ∃ p e,
      Path.components path = .ok p ∧ t.entry p = some e ∧ e.kind = .file ∧ e.id = block.owner := by
  cases h
  case addBlock p e hfile hkind hp hlease howner hleased hentry =>
    exact ⟨p, e, hp, hfile, hkind, howner.symm⟩

theorem entry_of_prefix {p q : Position} (hpq : p <+: q) (hq : (t.entry q).isSome) :
    (t.entry p).isSome := by
  obtain ⟨r, rfl⟩ := hpq
  induction r using List.reverseRecOn
  case nil => simpa using hq
  case append_singleton r name ih =>
    obtain ⟨e, he⟩ := Option.isSome_iff_exists.mp hq
    rw [← List.append_assoc] at he
    obtain ⟨dir, hdir, -⟩ := t.above he
    exact ih (Option.isSome_iff_exists.mpr ⟨dir, hdir⟩)

theorem move_self : t.move start start = t.entry := by
  funext p
  rw [move]
  split
  case isTrue hp => rw [← List.prefix_append_drop hp]
  case isFalse => rfl

-- Nothing else takes an entry from its place, or another one there.
theorem Step.kept {result : Except Stop Value} {p : Position} {e : Entry} (h : t.Step op result t')
    (he : t.entry p = some e) (hkept : ¬Displaces p op result) :
    ∃ e', t'.entry p = some e' ∧ e'.id = e.id := by
  have hother {q : Position} {found : Option Entry} (hq : p ≠ q)
      (hentry : t'.entry = Function.update t.entry q found) :
      ∃ e', t'.entry p = some e' ∧ e'.id = e.id :=
    ⟨e, by rw [hentry, Function.update_of_ne hq, he], rfl⟩
  have hfree {q : Position} (hq : t.Free q) : p ≠ q := by
    rintro rfl
    cases hq.1.symm.trans he
  cases h
  case makeDirectory q id hp hq hentry hleased => exact hother (hfree hq) hentry
  case createFile path holder q id hp hq hentry hleased => exact hother (hfree hq) hentry
  case delete path q hp hremovable hentry hleased =>
    refine hother ?_ hentry
    rintro rfl
    exact hkept ⟨rfl, hp⟩
  case rename source destination start goal hstart hgoal hmovable hentry hleased =>
    have hsame (heq : t'.entry p = t.entry p) : ∃ e', t'.entry p = some e' ∧ e'.id = e.id :=
      ⟨e, heq.trans he, rfl⟩
    by_cases hstay : goal = start
    case pos => exact hsame (by rw [hentry, hstay, move_self])
    case neg =>
      obtain ⟨hnone, -⟩ := hmovable.2.2.2.2.resolve_left hstay
      have hbelow : ¬goal <+: p := fun hprefix => by
        have := t.entry_of_prefix hprefix (Option.isSome_iff_exists.mpr ⟨e, he⟩)
        simp [hnone] at this
      have hbeside : ¬start <+: p := fun hprefix =>
        hkept ⟨start, goal, hstart, hgoal, hprefix, hstay⟩
      exact hsame (by rw [hentry, move, if_neg hbelow, if_neg hbeside])
  case addBlock path holder q d block hp hd hkind hlease howner hentry hleased =>
    by_cases hq : p = q
    case neg => exact hother hq hentry
    case pos =>
      subst hq
      cases hd.symm.trans he
      exact ⟨{ e with blocks := e.blocks ++ [block.id] }, by rw [hentry, Function.update_self], rfl⟩
  all_goals exact ⟨e, he, rfl⟩

end FileTree

namespace Rows

variable {rows : Rows} {n : Node} {p : Position}

-- What operations make of a new store when they run one at a time.
structure Arranged (rows : Rows) : Prop where
  hierarchy : rows.Hierarchy
  numbered : rows.Numbered
  stamp : ∃ value, rows.counterAt .generationStamp value
  placed {n : Node} : .node n ∈ rows.toList → ∃ p, rows.place p = some n

-- The tree that the rows of a store give.
def tree (rows : Rows) (h : rows.Arranged) : FileTree where
  entry p := (rows.place p).map Node.entry
  leased holder path := (Namespace.leaseIn holder rows).any (·.covers path)
  root := by rw [h.hierarchy.place_nil, Option.map_some]
  above {p name e} he := by
    obtain ⟨n, hn, -⟩ := Option.map_eq_some_iff.mp he
    obtain ⟨dir, hdir, hkind, -⟩ := Rows.entry_of_place hn
    exact ⟨dir.entry, by rw [hdir, Option.map_some], by simpa [Node.isDirectory, Node.entry] using hkind⟩
  kind he := by
    obtain ⟨n, hn, rfl⟩ := Option.map_eq_some_iff.mp he
    simpa [Node.isDirectory, Node.isFile, Node.entry] using h.numbered.kind (Rows.mem_of_place hn)
  distinct hp hq hid := by
    obtain ⟨m, hm, rfl⟩ := Option.map_eq_some_iff.mp hp
    obtain ⟨n, hn, rfl⟩ := Option.map_eq_some_iff.mp hq
    exact Rows.place_injective hm hn hid
  finite := by
    refine Set.Finite.of_injOn (f := rows.place) (t := {found | ∃ row ∈ rows.toList, found = row.node?})
      ?_ ?_ ?_
    · intro p hp
      obtain ⟨n, hn⟩ : ∃ n, rows.place p = some n := by simpa [Option.isSome_iff_exists] using hp
      exact ⟨.node n, Rows.mem_of_place hn, hn⟩
    · intro p hp q hq heq
      obtain ⟨n, hn⟩ : ∃ n, rows.place p = some n := by simpa [Option.isSome_iff_exists] using hp
      exact Rows.place_injective hn (heq ▸ hn) rfl
    · refine ((rows.toList.finite_toSet).image Row.node?).subset ?_
      rintro _ ⟨row, hrow, rfl⟩
      exact ⟨row, hrow, rfl⟩

end Rows

end NamespaceService
