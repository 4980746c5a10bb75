import NamespaceService.Proofs.Namespace.Appending
import NamespaceService.Proofs.Namespace.Unleased

namespace NamespaceService

-- The error without its text.
def OperationError.bare : OperationError → OperationError
  | notFound _ => notFound ""
  | alreadyExists _ => alreadyExists ""
  | notADirectory _ => notADirectory ""
  | notAFile _ => notAFile ""
  | directoryNotEmpty _ => directoryNotEmpty ""
  | invalidArgument _ => invalidArgument ""
  | deviceFailure _ => deviceFailure ""

def Stop.bare : Stop → Stop
  | .failed (.operation error) => .failed (.operation error.bare)
  | stop => stop

def bared {α : Type} (result : Except Stop α) : Except Stop α :=
  result.mapError Stop.bare

theorem bared_eq_ok_iff {α : Type} {result : Except Stop α} {a : α} :
    bared result = .ok a ↔ result = .ok a := by
  cases result <;> simp [bared, Except.mapError]

-- Running over is no refusal.
theorem bared_eq_overflow_iff {α : Type} {result : Except Stop α} :
    bared result = .error .overflow ↔ result = .error .overflow := by
  obtain ((_ | _ | _ | _) | _) | _ := result
  all_goals simp [bared, Except.mapError, Stop.bare]

namespace Path

variable {path path' : String}

theorem basename?_congr (h : components path = components path') : basename? path = basename? path' := by
  rw [basename?, basename?, h]

theorem dirname?_congr (h : components path = components path') : dirname? path = dirname? path' := by
  rw [dirname?, dirname?, h]

end Path

namespace Namespace

open Session Session.NamespaceOperation UnitOfWork

-- The outcomes differ in texts of errors and in changes of leases at most.
inductive Matches {α : Type} : Except Stop (Effect α) → Except Stop (Effect α) → Prop
  | ok {a : α} {changes changes' : List Change}
    (h : changes.filter (!·.key.isLease) = changes'.filter (!·.key.isLease)) :
    Matches (.ok ⟨a, changes⟩) (.ok ⟨a, changes'⟩)
  | error {stop stop' : Stop} (h : stop.bare = stop'.bare) : Matches (.error stop) (.error stop')

variable {α β : Type} {o o' : Except Stop (Effect α)} {e e' : Except Stop β}
  {f f' : β → Except Stop (Effect α)} {error error' : OperationError} {rows rows' : Rows}
  {path path' holder source source' destination destination' : String} {r r' : Resolution}
  {children : NodeId → List Node} {blocks : NodeId → List Block} {lease lease' : Option Lease}
  {start goal : Position} {counter block stamp : Option UInt64}

namespace Matches

theorem refl (o : Except Stop (Effect α)) : Matches o o := by
  cases o
  case ok => exact .ok rfl
  case error => exact .error rfl

theorem refuse (h : error.bare = error'.bare) :
    Matches (refuse error : Except Stop (Effect α)) (Namespace.refuse error') :=
  .error (congrArg (Stop.failed <| .operation ·) h)

theorem bind (he : bared e = bared e') (hf : ∀ b, Matches (f b) (f' b)) :
    Matches (e >>= f) (e' >>= f') := by
  cases e
  case ok b =>
    obtain rfl := bared_eq_ok_iff.mp he.symm
    exact hf b
  case error stop =>
    cases e'
    case ok b => cases bared_eq_ok_iff.mp he
    case error => exact .error (Except.error.inj he)

theorem map (value : α → Value) (h : Matches o o') :
    Matches (o.map (effectOf value)) (o'.map (effectOf value)) := by
  cases h
  case ok h => exact .ok h
  case error h => exact .error h

theorem bared_eq (h : Matches o o') :
    bared (o.map Effect.result) = bared (o'.map Effect.result) := by
  cases h
  case ok => rfl
  case error h => exact congrArg Except.error h

theorem unleased_eq (h : Matches o o') (hrows : rows.unleased = rows'.unleased) :
    (rowsAfter rows o).unleased = (rowsAfter rows' o').unleased := by
  cases h
  case ok h => rw [rowsAfter, rowsAfter, Rows.unleased_applyAll, Rows.unleased_applyAll, hrows, h]
  case error => exact hrows

end Matches

section

variable (h : Path.components path = Path.components path')

include h

theorem namesOf_congr : namesOf path = namesOf path' := by
  rw [namesOf, namesOf, h]

theorem resolveIn_congr (hrows : rows.unleased = rows'.unleased) :
    resolveIn path rows = resolveIn path' rows' := by
  rw [resolveIn, resolveIn, namesOf_congr h, Rows.place_congr hrows]

theorem leafOf_respelled : bared (leafOf path) = bared (leafOf path') := by
  rw [leafOf, leafOf, Path.basename?_congr h]
  cases Path.basename? path' <;> rfl

theorem Resolution.directory_respelled : r.directory path = r.directory path' := by
  rw [directory, directory, Path.dirname?_congr h]

theorem makeNode_respelled {kind : NodeKind} {more more' : List Change}
    (hmore : more.filter (!·.key.isLease) = more'.filter (!·.key.isLease)) :
    Matches (makeNode path kind r counter more) (makeNode path' kind r counter more') := by
  rw [makeNode, makeNode, Resolution.directory_respelled h]
  split
  case isTrue => exact .refuse rfl
  case isFalse =>
    refine .bind rfl fun parent => .bind (leafOf_respelled h) fun name => .bind rfl fun id => ?_
    exact .ok (by rw [List.filter_append, List.filter_append, hmore])

end

theorem Delete.plan_respelled (path path' : String) :
    Matches (plan path r children blocks) (plan path' r children blocks) := by
  rw [plan, plan]
  repeat' split
  all_goals first | exact .refl _ | exact .refuse rfl

theorem Rename.plan_respelled (h : Path.components destination = Path.components destination') :
    Matches (plan source destination start goal r r') (plan source' destination' start goal r r') := by
  rw [plan, plan]
  repeat' split
  case h_2.isFalse.isFalse =>
    rw [Resolution.directory_respelled h]
    exact .bind rfl fun parent => .bind (leafOf_respelled h) fun name => .refl _
  all_goals first | exact .refl _ | exact .refuse rfl

theorem AddBlock.plan_respelled (h : ∀ n, r.target = some n → n.isFile →
      lease.any (·.covers path) = lease'.any (·.covers path')) :
    Matches (plan path holder r lease block stamp) (plan path' holder r lease' block stamp) := by
  cases hn : r.target
  case none =>
    rw [plan_missing hn, plan_missing hn]
    exact .refuse rfl
  case some n =>
    by_cases hfile : n.isFile
    case neg =>
      rw [plan_misfit hn hfile, plan_misfit hn hfile]
      exact .refuse rfl
    case pos =>
      simp only [plan, hn, h n hn hfile]
      split
      case isTrue => exact .refuse rfl
      case isFalse =>
        split
        case isTrue => exact .refuse rfl
        case isFalse => exact .refl _

theorem ListDirectory.plan_respelled (path path' : String) :
    Matches (plan path r children) (plan path' r children) := by
  rw [plan, plan]
  repeat' split
  all_goals first | exact .refl _ | exact .refuse rfl

end Namespace

namespace Session.NamespaceOperation

open Namespace UnitOfWork

-- The same operation, with paths of the same components.
inductive Respells : NamespaceOperation → NamespaceOperation → Prop
  | makeDirectory {path path' : String} (h : Path.components path = Path.components path') :
    Respells (.makeDirectory path) (.makeDirectory path')
  | createFile {path path' holder : String} (h : Path.components path = Path.components path') :
    Respells (.createFile path holder) (.createFile path' holder)
  | delete {path path' : String} (h : Path.components path = Path.components path') :
    Respells (.delete path) (.delete path')
  | rename {source source' destination destination' : String}
    (h : Path.components source = Path.components source')
    (h' : Path.components destination = Path.components destination') :
    Respells (.rename source destination) (.rename source' destination')
  | addBlock {path path' holder : String} (h : Path.components path = Path.components path') :
    Respells (.addBlock path holder) (.addBlock path' holder)
  | fileInfo {path path' : String} (h : Path.components path = Path.components path') :
    Respells (.fileInfo path) (.fileInfo path')
  | listDirectory {path path' : String} (h : Path.components path = Path.components path') :
    Respells (.listDirectory path) (.listDirectory path')

variable {rows rows' : Rows} {op op' : NamespaceOperation} {path path' holder : String}

theorem addBlock_respelled (h : Path.components path = Path.components path')
    (hrows : rows.unleased = rows'.unleased) (hlease : FileAt rows path →
      (leaseIn holder rows).any (·.covers path) = (leaseIn holder rows').any (·.covers path')) :
    Matches ((addBlock path holder).outcome false rows)
      ((addBlock path' holder).outcome false rows') := by
  refine .map _ ?_
  cases hp : Path.components path
  case error =>
    rw [AddBlock.outcome, AddBlock.outcome, ← resolveIn_congr h hrows, resolveIn_malformed hp]
    exact .refl _
  case ok p =>
    rw [AddBlock.outcome_eq hp, AddBlock.outcome_eq (h ▸ hp), Rows.place_congr hrows,
      Rows.counterIn_congr hrows, Rows.counterIn_congr hrows]
    refine AddBlock.plan_respelled fun n hn hfile => hlease ⟨p, n, hp, ?_, hfile⟩
    rw [Rows.place_congr hrows]
    exact hn

-- On rows that differ in leases at most, the operations come to the same, unless they append.
theorem Respells.matches (h : Respells op op') (hrows : rows.unleased = rows'.unleased)
    (hlease : ∀ path path' holder, op = .addBlock path holder → op' = .addBlock path' holder →
      FileAt rows path →
        (leaseIn holder rows).any (·.covers path) = (leaseIn holder rows').any (·.covers path')) :
    Matches (op.outcome false rows) (op'.outcome false rows') := by
  cases h
  case makeDirectory h =>
    refine .map _ ?_
    change Matches (MakeDirectory.outcome _ rows) (MakeDirectory.outcome _ rows')
    rw [MakeDirectory.outcome, resolveIn_congr h hrows, Rows.counterIn_congr hrows]
    exact .bind rfl fun r => makeNode_respelled h rfl
  case createFile h =>
    refine .map _ ?_
    change Matches (CreateFile.outcome _ _ rows) (CreateFile.outcome _ _ rows')
    rw [CreateFile.outcome, resolveIn_congr h hrows, Rows.counterIn_congr hrows]
    exact .bind rfl fun r => makeNode_respelled h rfl
  case delete h =>
    refine .map _ ?_
    change Matches (Delete.outcome _ rows) (Delete.outcome _ rows')
    rw [Delete.outcome, resolveIn_congr h hrows, Rows.childrenIn_congr hrows, Rows.blocksIn_congr hrows]
    exact .bind rfl fun r => Delete.plan_respelled ..
  case rename h h' =>
    refine .map _ ?_
    rw [Rename.outcome, namesOf_congr h, namesOf_congr h', Rows.place_congr hrows]
    exact .bind rfl fun start => .bind rfl fun goal => Rename.plan_respelled h'
  case addBlock path path' holder h => exact addBlock_respelled h hrows (hlease _ _ _ rfl rfl)
  case fileInfo h =>
    refine .map _ ?_
    rw [fileInfoOutcome, resolveIn_congr h hrows]
    exact .refl _
  case listDirectory h =>
    refine .map _ ?_
    rw [ListDirectory.outcome, resolveIn_congr h hrows, Rows.childrenIn_congr hrows]
    exact .bind rfl fun r => ListDirectory.plan_respelled ..

theorem bared_block_iff {x : Except Stop Value} :
    (∃ b, bared x = .ok (.block b)) ∨ bared x = .error .overflow ↔
      (∃ b, x = .ok (.block b)) ∨ x = .error .overflow := by
  simp only [bared_eq_ok_iff, bared_eq_overflow_iff]

theorem FileAt.respelled (hfile : FileAt rows path)
    (h : Path.components path = Path.components path') (hrows : rows.unleased = rows'.unleased) :
    FileAt rows' path' := by
  obtain ⟨p, n, hp, hn, hkind⟩ := hfile
  exact ⟨p, n, h ▸ hp, Rows.place_congr hrows ▸ hn, hkind⟩

namespace Course

variable {ops ops' : List (NamespaceOperation × TransactionConfig)} {config config' : TransactionConfig}
  {n : Nat}

-- What comes of an operation, but for texts of errors and leases: its result, and the rows after it.
def shown (course : Course ops) (n : Nat) : Option (Except Stop Value) × Rows :=
  (course.results[n]?.map bared, (course.rows (n + 1)).unleased)

-- If this operation is to append to a file, its holder has opened the path in both runs or in none.
def SameRight (course : Course ops) (course' : Course ops') (n : Nat) : Prop :=
  ∀ path path' holder, (ops.map Prod.fst)[n]? = some (.addBlock path holder) →
    (ops'.map Prod.fst)[n]? = some (.addBlock path' holder) → FileAt (course.rows n) path →
      (Opened (course.history n) path holder ↔ Opened (course'.history n) path' holder)

variable (course : Course ops) (course' : Course ops')
  (hrows : (course.rows n).unleased = (course'.rows n).unleased)

include hrows

theorem shown_iff (hop : ops[n]? = some (op, config)) (hop' : ops'[n]? = some (op', config'))
    (h : Respells op op') : course.shown n = course'.shown n ↔ course.SameRight course' n := by
  obtain ⟨hresult, hafter⟩ := course.step hop
  obtain ⟨hresult', hafter'⟩ := course'.step hop'
  rw [shown, shown, hresult, hresult', hafter, hafter']
  constructor
  case mp =>
    intro hshown path path' holder hpath hpath' hfile
    obtain rfl : op = .addBlock path holder := by simpa [hop] using hpath
    obtain rfl : op' = .addBlock path' holder := by simpa [hop'] using hpath'
    cases h
    case addBlock hpaths =>
      have hbared := Option.some.inj (congrArg Prod.fst hshown)
      have hgives := (course.leads n).addBlock_iff_of_file hfile holder
      have hgives' := (course'.leads n).addBlock_iff_of_file (hfile.respelled hpaths hrows) holder
      rw [← hgives, ← hgives', ← bared_block_iff, hbared, bared_block_iff]
  case mpr =>
    intro hright
    have hmatches := h.matches hrows fun path path' holder heq heq' hfile => by
      subst heq heq'
      rw [Bool.eq_iff_iff, (course.leads n).leased_iff, (course'.leads n).leased_iff]
      exact hright path path' holder (by simp [hop]) (by simp [hop']) hfile
    exact Prod.ext (congrArg some hmatches.bared_eq) (hmatches.unleased_eq hrows)

theorem shown_over (hn : ops.length ≤ n) (hn' : ops'.length ≤ n) :
    course.shown n = course'.shown n ∧ course.SameRight course' n := by
  have hop := List.getElem?_eq_none hn
  obtain ⟨hresult, hafter⟩ := course.rows_after hop
  obtain ⟨hresult', hafter'⟩ := course'.rows_after (List.getElem?_eq_none hn')
  refine ⟨?_, fun _ _ _ hpath => ?_⟩
  · rw [shown, shown, hresult, hresult', hafter, hafter', hrows]
  · simp [hop] at hpath

end Course

-- Other spellings of the paths show only where a file is appended to: the first operation that comes
-- to something else is one whose holder has opened the file by this path in one of the runs only.
theorem respelled_alike_iff {ops ops' : List (NamespaceOperation × TransactionConfig)}
    (h : List.Forall₂ (Respells ·.1 ·.1) ops ops') :
    ∃ (course : Course ops) (course' : Course ops'), ∀ n,
      (∀ k < n, course.shown k = course'.shown k) ↔ ∀ k < n, course.SameRight course' k := by
  obtain ⟨course⟩ := Course.exists_course ops
  obtain ⟨course'⟩ := Course.exists_course ops'
  refine ⟨course, course', fun n => ?_⟩
  induction n
  case zero => simp
  case succ n ih =>
    rw [Nat.forall_lt_succ_right, Nat.forall_lt_succ_right, ← ih]
    refine and_congr_right fun hshown => ?_
    have hrows : (course.rows n).unleased = (course'.rows n).unleased := by
      cases n
      case zero => rw [course.rows_zero, course'.rows_zero]
      case succ n => exact congrArg Prod.snd (hshown n n.lt_succ_self)
    obtain hn | hn := Nat.lt_or_ge n ops.length
    case inl =>
      have hn' : n < ops'.length := h.length_eq ▸ hn
      exact course.shown_iff course' hrows (List.getElem?_eq_getElem hn)
        (List.getElem?_eq_getElem hn') (h.get hn hn')
    case inr =>
      obtain ⟨hsame, hright⟩ := course.shown_over course' hrows hn (h.length_eq ▸ hn)
      exact iff_of_true hsame hright

-- A file that is made and appended to under another spelling.
theorem respelled_alike_iff_slashes :
    let ops : List (NamespaceOperation × TransactionConfig) := [(.makeDirectory "/a", {}),
      (.createFile "/a/f" "c", {}), (.addBlock "/a/f" "c", { rowLevelLock := false })]
    let ops' : List (NamespaceOperation × TransactionConfig) := [(.makeDirectory "//a/", {}),
      (.createFile "/a/./f" "c", {}), (.addBlock "/a/./f" "c", { rowLevelLock := false })]
    List.Forall₂ (Respells ·.1 ·.1) ops ops' ∧
      ∃ (course : Course ops) (course' : Course ops'), ∀ n,
        (∀ k < n, course.shown k = course'.shown k) ↔ ∀ k < n, course.SameRight course' k := by
  intro ops ops'
  have hrespells : List.Forall₂ (Respells ·.1 ·.1) ops ops' :=
    .cons (.makeDirectory rfl) (.cons (.createFile rfl) (.cons (.addBlock rfl) .nil))
  exact ⟨hrespells, respelled_alike_iff hrespells⟩

-- A file that is made under one spelling is not appended to under another one.
theorem respelled_refused :
    let ops : List (NamespaceOperation × TransactionConfig) :=
      [(.createFile "/f" "c", {}), (.addBlock "/f" "c", {})]
    let ops' : List (NamespaceOperation × TransactionConfig) :=
      [(.createFile "/f" "c", {}), (.addBlock "//f" "c", {})]
    List.Forall₂ (Respells ·.1 ·.1) ops ops' ∧ ∃ results w results' w',
      (executeAll ops).run { store := .new } = some (results, w) ∧
      (executeAll ops').run { store := .new } = some (results', w') ∧
      results.map bared ≠ results'.map bared := by
  intro ops ops'
  obtain ⟨results, w, hrun, -⟩ := Leads.new.executeAll (w := { store := .new }) .new ops
  obtain ⟨results', w', hrun', -⟩ := Leads.new.executeAll (w := { store := .new }) .new ops'
  have hcheck : ((executeAll ops).run { store := .new }).any fun run =>
      run.1.map ownerOfBlock? = [none, some ⟨1⟩] := by
    decide +kernel
  have hcheck' : ((executeAll ops').run { store := .new }).any fun run =>
      run.1.map ownerOfBlock? = [none, none] := by
    decide +kernel
  refine ⟨.cons (.createFile rfl) (.cons (.addBlock rfl) .nil), results, w, results', w', hrun, hrun',
    fun heq => ?_⟩
  rw [hrun] at hcheck
  rw [hrun'] at hcheck'
  have howners : results.map ownerOfBlock? = [none, some ⟨1⟩] := by simpa using hcheck
  have howners' : results'.map ownerOfBlock? = [none, none] := by simpa using hcheck'
  have hbared : ownerOfBlock? ∘ bared = ownerOfBlock? := funext fun x => by cases x <;> rfl
  have hsame := congrArg (List.map ownerOfBlock?) heq
  rw [List.map_map, List.map_map, hbared, howners, howners'] at hsame
  cases hsame

end Session.NamespaceOperation

end NamespaceService
