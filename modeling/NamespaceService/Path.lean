import NamespaceService.Order.Ranked

namespace NamespaceService

namespace Path

inductive PathError
  | notAbsolute (path : String)
  | parentSegment (path : String)
deriving DecidableEq

def PathError.message : PathError → String
  | notAbsolute path => s!"path '{path}' is not absolute"
  | parentSegment path => s!"path '{path}' contains '..'"

-- The pieces of a text between slashes.
def segments : List Char → List (List Char)
  | [] => [[]]
  | c :: cs =>
    if c = '/' then [] :: segments cs
    else match segments cs with
      | [] => [[c]]
      | s :: ss => (c :: s) :: ss

-- A segment that names a component.
def isName (segment : List Char) : Bool :=
  segment ≠ [] && segment ≠ ['.']

-- Empty segments and `.` say nothing, and `..` is not allowed.
def components (path : String) : Except PathError (List String) :=
  match path.toList with
  | '/' :: rest =>
    if ['.', '.'] ∈ segments rest then .error (.parentSegment path)
    else .ok (((segments rest).filter isName).map String.ofList)
  | _ => .error (.notAbsolute path)

-- Number of nodes on a fully resolved path, the root included.
def depth (path : String) : Except PathError Nat :=
  (components path).map (·.length + 1)

def render (names : List String) : String :=
  "/" ++ "/".intercalate names

def basename? (path : String) : Option String :=
  match components path with
  | .ok names => names.getLast?
  | .error _ => none

def dirname? (path : String) : Option String :=
  match components path with
  | .ok [] => none
  | .ok names => some (render names.dropLast)
  | .error _ => none

end Path

-- The components of a path, so ordered that a directory comes before what is below it.
abbrev Position := List String

namespace Position

def fromRoot (p : Position) : List Position :=
  (List.range (p.length + 1)).map (p.take ·)

-- Each name is closed by a mark that is smaller than any character of a name.
def marks : Position → List Nat
  | [] => []
  | name :: names => (Ranked.rank name).map (· + 1) ++ 0 :: marks names

theorem append_mark_inj {l l' r r' : List Nat}
    (h : l.map (· + 1) ++ 0 :: r = l'.map (· + 1) ++ 0 :: r') : l = l' ∧ r = r' := by
  induction l generalizing l' with
  | nil => cases l' <;> simp_all
  | cons a l ih =>
    cases l' with
    | nil => simp at h
    | cons b l' =>
      simp only [List.map_cons, List.cons_append, List.cons.injEq, Nat.add_right_cancel_iff] at h
      have := ih h.2
      simp_all

theorem marks_injective {p q : Position} (h : marks p = marks q) : p = q := by
  induction p generalizing q with
  | nil => cases q <;> simp_all [marks]
  | cons a p ih =>
    cases q with
    | nil => simp [marks] at h
    | cons b q =>
      have ⟨ha, hp⟩ := append_mark_inj h
      rw [Ranked.rank_injective ha, ih hp]

instance : Ranked Position where
  rank := marks
  rank_injective := marks_injective

end Position

end NamespaceService
