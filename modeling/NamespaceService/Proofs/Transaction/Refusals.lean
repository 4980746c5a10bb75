import NamespaceService.Proofs.Transaction.Learning
import NamespaceService.Proofs.Transaction.Owners

namespace NamespaceService

open Program

-- Rows of the key have owners.
def Key.owned : Key → Bool
  | .node id => id ≠ .root
  | .block _ | .replica .. | .replicaUnderConstruction .. => true
  | .lease _ | .register _ => false

theorem Row.owner?_isSome (row : Row) : row.owner?.isSome = row.key.owned := by
  cases row
  case node n => by_cases hroot : n.id = .root <;> simp [owner?, key, Key.owned, Node.isRoot, hroot]
  case replica r => by_cases huc : r.underConstruction <;> simp [owner?, key, Key.owned, huc]
  all_goals rfl

namespace Change

variable {change : Change}

-- The owner that the change puts the row under.
def ownerAfter? (change : Change) : Option Key :=
  change.row?.bind Row.owner?

theorem owned_of_ownerAfter? {owner : Key} (h : change.ownerAfter? = some owner) :
    change.key.owned := by
  obtain ⟨row, hrow, howner⟩ := Option.bind_eq_some_iff.mp h
  cases change <;> cases hrow
  rw [key, ← row.owner?_isSome, howner, Option.isSome_some]

theorem row?_eq_none_of_owned (howned : change.key.owned) (h : change.ownerAfter? = none) :
    change.row? = none := by
  cases change
  case remove => rfl
  case upsert row =>
    rw [key, ← row.owner?_isSome] at howned
    obtain ⟨owner, howner⟩ := Option.isSome_iff_exists.mp howned
    cases h.symm.trans howner

end Change

namespace Context

variable {c c' : Context} {change : Change} {earlier : List Change} {key owner : Key} {row : Row}
  {found : List Row} {first : Key → Option Row}

def firstOf (found : List Row) (key : Key) : Option Row :=
  found.find? (·.key = key)

theorem firstOf_append {found' : List Row} :
    firstOf (found ++ found') key = (firstOf found key).or (firstOf found' key) :=
  List.find?_append

-- Of rows that are read, the owners stay that were recalled before; the others are recalled now.
def Notes (found : List Row) (c c' : Context) : Prop :=
  ∀ key, c'.origins key = (c.origins key).or ((firstOf found key).map Row.owner?)

theorem upsert_origins : (c.upsert row).origins = c.origins := by
  rw [upsert]
  split <;> rfl

theorem remove_origins : (c.remove key).origins = c.origins := by
  rw [remove]
  split <;> rfl

namespace Notes

theorem of_eq (h : c'.origins = c.origins) : Notes [] c c' := by
  simp [Notes, h, firstOf]

theorem trans {found' : List Row} {c'' : Context} (h : Notes found c c') (h' : Notes found' c' c'') :
    Notes (found ++ found') c c'' := by
  intro key
  rw [h' key, h key, firstOf_append, Option.or_assoc, Option.map_or]

theorem remember : Notes [row] c (c.remember row) := by
  intro key
  rw [remember_origins, firstOf, List.find?_singleton]
  by_cases hkey : row.key = key
  case pos => cases h : c.origins key <;> simp [hkey]
  case neg => simp [hkey, Ne.symm hkey]

theorem foldl_remember : Notes found c (found.foldl Context.remember c) := by
  induction found generalizing c
  case nil => exact of_eq rfl
  case cons row found ih => exact remember.trans ih

theorem of_kept (h : Kept found c c') : Notes found c c' :=
  fun key => h.origins ▸ foldl_remember key

end Notes

-- The owners of a changed row: when it was first read, after the changes before this one, and now.
def ownersOf (first : Key → Option Row) (earlier : List Change) (change : Change) : List Key :=
  ((first change.key).bind Row.owner?).toList ++
    (earlier.filter (·.key = change.key)).filterMap Change.ownerAfter? ++ change.ownerAfter?.toList

-- The row itself is locked for writing, or all that it has belonged to.
def Covered (c : Context) (first : Key → Option Row) (earlier : List Change) (change : Change) : Prop :=
  c.writeLocked change.key ∨ ownersOf first earlier change ≠ [] ∧
    ∀ owner ∈ ownersOf first earlier change, c.writeLocked owner

instance : Decidable (c.Covered first earlier change) :=
  inferInstanceAs (Decidable (_ ∨ _))

def AllCovered (c : Context) (first : Key → Option Row) : Prop :=
  ∀ i (_ : i < c.changes.length), c.Covered first (c.changes.take i) c.changes[i]

instance : Decidable (c.AllCovered first) :=
  inferInstanceAs (Decidable (∀ i (_ : i < c.changes.length), _))

theorem mem_ownersOf_iff : owner ∈ ownersOf first earlier change ↔
    (first change.key).bind Row.owner? = some owner ∨
      (∃ e ∈ earlier, e.key = change.key ∧ e.ownerAfter? = some owner) ∨
      change.ownerAfter? = some owner := by
  simp [ownersOf, and_assoc]

theorem mem_guardsOf_iff_of_first (horigins : ∀ key, c.origins key = (first key).map Row.owner?) :
    owner ∈ c.guardsOf change ↔
      (first change.key).bind Row.owner? = some owner ∨ change.ownerAfter? = some owner := by
  rw [mem_guardsOf_iff, horigins, Change.ownerAfter?]
  cases first change.key <;> simp

theorem guardsOf_eq_nil_iff_of_first (horigins : ∀ key, c.origins key = (first key).map Row.owner?) :
    c.guardsOf change = [] ↔
      (first change.key).bind Row.owner? = none ∧ change.ownerAfter? = none := by
  simp only [List.eq_nil_iff_forall_not_mem, mem_guardsOf_iff_of_first horigins, not_or, forall_and,
    Option.eq_none_iff_forall_ne_some, ne_eq]

theorem AllCovered.exists_covered (h : c.AllCovered first) (hmem : change ∈ c.changes) :
    ∃ earlier, c.Covered first earlier change := by
  obtain ⟨i, hi, rfl⟩ := List.mem_iff_getElem.mp hmem
  exact ⟨_, h i hi⟩

-- All owners that the check asks for are locked, so it finds fault only where it asks for none. Then
-- only an earlier change put the row under an owner.
theorem uncovered?_iff_of_covered (horigins : ∀ key, c.origins key = (first key).map Row.owner?)
    (h : c.Covered first earlier change) : c.uncovered? change ≠ none ↔
      change.row? = none ∧ ¬c.writeLocked change.key ∧ (first change.key).bind Row.owner? = none := by
  rw [Ne, uncovered?_eq_none_iff, not_or]
  constructor
  case mp =>
    rintro ⟨hkey, hguards⟩
    obtain ⟨hne, howners⟩ := h.resolve_left hkey
    have hnone : c.guardsOf change = [] := by
      by_contra hsome
      refine hguards ⟨hsome, fun guard hguard => howners guard (mem_ownersOf_iff.mpr ?_)⟩
      exact ((mem_guardsOf_iff_of_first horigins).mp hguard).imp_right .inr
    obtain ⟨hfirst, hafter⟩ := (guardsOf_eq_nil_iff_of_first horigins).mp hnone
    refine ⟨Change.row?_eq_none_of_owned ?_ hafter, hkey, hfirst⟩
    obtain ⟨owner, howner⟩ := List.exists_mem_of_ne_nil _ hne
    obtain hbefore | ⟨e, -, hsame, he⟩ | hnow := mem_ownersOf_iff.mp howner
    · cases hfirst.symm.trans hbefore
    · exact hsame ▸ Change.owned_of_ownerAfter? he
    · cases hafter.symm.trans hnow
  case mpr =>
    rintro ⟨hremoved, hkey, hfirst⟩
    have hafter : change.ownerAfter? = none := by rw [Change.ownerAfter?, hremoved, Option.bind_none]
    have hnone := (guardsOf_eq_nil_iff_of_first horigins).mpr ⟨hfirst, hafter⟩
    exact ⟨hkey, fun hguards => hguards.1 hnone⟩

theorem forM_coverage_iff {changes : List Change} :
    (∃ key held, changes.forM c.coverage = .error (.lockUpgrade key held)) ↔
      ∃ change ∈ changes, c.uncovered? change ≠ none := by
  induction changes
  case nil => simp [Pure.pure, Except.pure]
  case cons first changes ih =>
    change (∃ key held, (c.coverage first >>= fun _ => changes.forM c.coverage) = _) ↔ _
    rw [List.exists_mem_cons_iff, ← ih, coverage]
    cases c.uncovered? first <;> simp [Bind.bind, Except.bind]

theorem covered?_eq_error_iff (hs : c.sealed) :
    (∃ key held, c.covered? = .error (.lockUpgrade key held)) ↔
      ∃ change ∈ c.changes, c.uncovered? change ≠ none := by
  rw [covered?, if_pos hs]
  exact forM_coverage_iff

end Context

namespace Session

variable {x : Entry} {xs : List Entry} {c c' : Context}

theorem Entry.notes_of_asked_nil (h : x.asked = []) (ho : c'.origins = c.origins) :
    Context.Notes x.given c c' := by
  rw [given, h]
  exact .of_eq ho

theorem Entry.Comes.notes (h : x.Comes c c') : Context.Notes x.given c c' := by
  cases h
  case known hevents => exact notes_of_asked_nil (asked_nil hevents) rfl
  case failed hevents => exact notes_of_asked_nil (asked_nil hevents) rfl
  case answered event _ _ _ hcall _ _ hevents =>
    rw [given, asked_of_events hevents, List.flatMap_singleton]
    exact .of_kept (Context.Kept.of_learn hcall)

theorem Transcript.notes_of (h : Transcript c xs c') (hxs : ∀ x ∈ xs, ∀ c c',
    (x.step.run c).run x.before = some ((x.reply, c'), x.after) → Context.Notes x.given c c') :
    Context.Notes (xs.flatMap Entry.given) c c' := by
  induction h
  case nil => exact .of_eq rfl
  case cons x xs hrun _ ih =>
    obtain ⟨hx, hlater⟩ := List.forall_mem_cons.mp hxs
    rw [List.flatMap_cons]
    exact (hx _ _ hrun).trans (ih hlater)

theorem Entry.notes (hstep : x.step.looks ∨ x.step.edits ∨ x.step = .endLockPhase)
    (hrun : (x.step.run c).run x.before = some ((x.reply, c'), x.after)) :
    Context.Notes x.given c c' := by
  obtain hlooks | hedits := hstep
  · obtain ⟨ys, hys⟩ := exists_singly hlooks hrun
    rw [given_eq hys]
    exact hys.transcript.notes_of fun y hy _ _ hrun => (comes (hys.finds y hy) hrun).notes
  · obtain ⟨rfl, -, hasked⟩ := eq_written hedits hrun
    refine notes_of_asked_nil hasked ?_
    cases x.step
    case upsert => exact Context.upsert_origins
    case remove => exact Context.remove_origins
    all_goals rfl

-- The row of the key that the store gave first.
def firstRead (xs : List Entry) (key : Key) : Option Row :=
  Context.firstOf (xs.flatMap Entry.given) key

theorem Transcript.origins_eq {tx : TxId} {key : Key} (h : Transcript (.new tx) xs c)
    (hsteps : ∀ x ∈ xs, x.step.looks ∨ x.step.edits ∨ x.step = .endLockPhase) :
    c.origins key = (firstRead xs key).map Row.owner? :=
  h.notes_of (fun x hx _ _ => Entry.notes (hsteps x hx)) key

end Session

namespace Action

variable {c : Context} {w : World}

def Refused (c : Context) (w : World) : Prop :=
  ∃ key held c' w', (commit c).run w = some ((.error (.lockUpgrade key held), c'), w')

theorem refused_of_covered? {key : Key} {held : String}
    (h : c.covered? = .error (.lockUpgrade key held)) : Refused c w := by
  refine ⟨key, held, c, w, ?_⟩
  rw [commit_eq, h, run_done]

-- A commit is refused by the check, if no such fault is queued.
theorem refused_iff_covered? (hfaults : ∀ key held, .lockUpgrade key held ∉ w.store.faults .commit) :
    Refused c w ↔ ∃ key held, c.covered? = .error (.lockUpgrade key held) := by
  constructor
  case mp =>
    rintro ⟨key, held, c', w', hrun⟩
    have halone := RunsAlone.of_run (commit_closes.mono fun _ => Request.Closes.plain) hrun
    obtain ⟨_, hcovered, heq, -, -⟩ | ⟨-, -, result, hcommit, hresult⟩ := commit_alone halone
    · cases heq
      exact ⟨key, held, hcovered⟩
    · obtain ⟨-, -, heq⟩ | ⟨_, -, -, heq⟩ | ⟨fault, rest, hqueued, heq⟩ :=
        w.store.commit_cases c.tx c.changes
      all_goals
        obtain rfl := congrArg Prod.fst (heq.symm.trans hcommit)
        cases hresult
      exact absurd (hqueued ▸ List.mem_cons_self) (hfaults key held)
  case mpr => exact fun ⟨_, _, hcovered⟩ => refused_of_covered? hcovered

end Action

namespace Session

variable {xs : List Entry} {c : Context} {tx : TxId} {w : World}

-- A covered commit is refused if and only if it removes a row that is not locked, and that had no
-- owner when it was first read, or was never read.
theorem Transcript.lockUpgrade_iff (h : Transcript (.new tx) xs c)
    (hsteps : ∀ x ∈ xs, x.step.looks ∨ x.step.edits ∨ x.step = .endLockPhase) (hs : c.sealed)
    (hcovered : c.AllCovered (firstRead xs))
    (hfaults : ∀ key held, .lockUpgrade key held ∉ w.store.faults .commit) :
    Action.Refused c w ↔ ∃ key, .remove key ∈ c.changes ∧ ¬c.writeLocked key ∧
      (firstRead xs key).bind Row.owner? = none := by
  have horigins (key : Key) : c.origins key = (firstRead xs key).map Row.owner? := h.origins_eq hsteps
  rw [Action.refused_iff_covered? hfaults, Context.covered?_eq_error_iff hs]
  constructor
  case mp =>
    rintro ⟨change, hmem, huncovered⟩
    obtain ⟨earlier, hthis⟩ := hcovered.exists_covered hmem
    obtain ⟨hremoved, hkey, hfirst⟩ :=
      (Context.uncovered?_iff_of_covered horigins hthis).mp huncovered
    cases change
    case upsert => cases hremoved
    case remove key => exact ⟨key, hmem, hkey, hfirst⟩
  case mpr =>
    rintro ⟨key, hmem, hkey, hfirst⟩
    obtain ⟨earlier, hthis⟩ := hcovered.exists_covered hmem
    exact ⟨_, hmem, (Context.uncovered?_iff_of_covered horigins hthis).mpr ⟨rfl, hkey, hfirst⟩⟩

-- The file is read before it is removed.
def replaceFile : List ContextStep :=
  [.find (.node ⟨2⟩), .lockFind .write (.node ⟨1⟩), .endLockPhase, .remove (.node ⟨2⟩),
    .upsert (.node ⟨⟨3⟩, ⟨1⟩, "f", .file, []⟩)]

theorem lockUpgrade_iff_replaceFile : ∃ xs c, Transcript (.new 1) xs c ∧
    xs.map Entry.step = replaceFile ∧ c.sealed ∧ c.AllCovered (firstRead xs) ∧
    ¬Action.Refused c { store := .ofRows ContextStep.oneFile } := by
  obtain ⟨xs, c, h, hsteps, hcheck⟩ := Transcript.exists_checked replaceFile (.new 1)
    { store := .ofRows ContextStep.oneFile }
    (fun xs c => c.sealed && c.AllCovered (firstRead xs) &&
      c.changes = [.remove (.node ⟨2⟩), .upsert (.node ⟨⟨3⟩, ⟨1⟩, "f", .file, []⟩)] &&
      ((firstRead xs (.node ⟨2⟩)).bind Row.owner?).isSome) (by decide +kernel)
  simp only [Bool.and_eq_true, decide_eq_true_eq] at hcheck
  obtain ⟨⟨⟨hs, hcovered⟩, hchanges⟩, hread⟩ := hcheck
  refine ⟨xs, c, h, hsteps, hs, hcovered, fun hrefused => ?_⟩
  have hkinds : ∀ step ∈ xs.map Entry.step, step.looks ∨ step.edits ∨ step = .endLockPhase := by
    simp [hsteps, replaceFile, ContextStep.looks, ContextStep.edits]
  have hfaults : ∀ key held,
      .lockUpgrade key held ∉ (Store.ofRows ContextStep.oneFile).faults .commit := by
    simp [Store.ofRows, Store.new]
  obtain ⟨key, hmem, -, hfirst⟩ :=
    (h.lockUpgrade_iff (List.forall_mem_map.mp hkinds) hs hcovered hfaults).mp hrefused
  rw [hchanges] at hmem
  obtain rfl : key = .node ⟨2⟩ := by simpa using hmem
  simp [hfirst] at hread

-- The file that is removed is a new one.
def addAndRemove : List ContextStep :=
  [.lockFind .write (.node ⟨1⟩), .endLockPhase, .upsert (.node ⟨⟨3⟩, ⟨1⟩, "g", .file, []⟩),
    .remove (.node ⟨3⟩)]

-- Every change is covered by the lock on the directory, and still the commit is refused.
theorem addAndRemove_refused : ∃ xs c, Transcript (.new 1) xs c ∧ xs.map Entry.step = addAndRemove ∧
    c.sealed ∧ c.AllCovered (firstRead xs) ∧ ∀ w, Action.Refused c w := by
  obtain ⟨xs, c, h, hsteps, hcheck⟩ := Transcript.exists_checked addAndRemove (.new 1)
    { store := .ofRows ContextStep.oneFile }
    (fun xs c => c.sealed && c.AllCovered (firstRead xs) &&
      c.changes.any fun change => c.uncovered? change ≠ none) (by decide +kernel)
  simp only [Bool.and_eq_true, List.any_eq_true, decide_eq_true_eq] at hcheck
  obtain ⟨⟨hs, hcovered⟩, huncovered⟩ := hcheck
  obtain ⟨key, held, hrefused⟩ := (Context.covered?_eq_error_iff hs).mpr huncovered
  exact ⟨xs, c, h, hsteps, hs, hcovered, fun w => Action.refused_of_covered? hrefused⟩

end Session

end NamespaceService
