import NamespaceService.Proofs.Transaction.Buffering
import NamespaceService.Proofs.Transaction.Caching

namespace NamespaceService

open Function Program

variable {α β : Type} {m : Action α} {f : α → Action β} {c c' : Context} {finder : Finder}
  {kind : LockKind} {known : Key → Option Row}

namespace Action

-- Nothing is asked of the store, the context stays as it is, and what comes out is as said.
def Recites (m : Action α) (c : Context) (P : α → Prop) : Prop :=
  (m c).Settles fun (r, c') => c' = c ∧ ∀ a, r = .ok a → P a

namespace Recites

variable {P : α → Prop} {Q : β → Prop}

theorem mono {P' : α → Prop} (h : m.Recites c P) (hp : ∀ a, P a → P' a) : m.Recites c P' :=
  Keeps.mono h (fun _ => id) fun _ ⟨hc, ha⟩ => ⟨hc, fun a hr => hp a (ha a hr)⟩

theorem pure {a : α} (h : P a) : (Pure.pure a : Action α).Recites c P :=
  ⟨rfl, fun _ ha => Except.ok.inj ha ▸ h⟩

theorem throw {fault : Fault} : (MonadExcept.throw fault : Action α).Recites c P :=
  ⟨rfl, by simp⟩

theorem bind (hm : m.Recites c P) (hf : ∀ a, P a → (f a).Recites c Q) : (m >>= f).Recites c Q := by
  rw [Recites, Stage.bind_apply]
  refine Keeps.bind hm fun (r, c') hr => ?_
  obtain ⟨rfl, ha⟩ := hr
  cases r
  case error => exact ⟨rfl, by simp⟩
  case ok a => exact hf a (ha a rfl)

theorem map {give : α → β} (hm : m.Recites c P) (h : ∀ a, P a → Q (give a)) :
    (give <$> m).Recites c Q := by
  rw [map_eq_pure_bind]
  exact hm.bind fun a ha => .pure (h a ha)

theorem log {level : Level} {message : String} : (log level message).Recites c fun _ => True :=
  have hlog : (Program.log level message).Only Request.Silent := .log fun _ => trivial
  Keeps.bind hlog fun _ _ => ⟨rfl, fun _ _ => trivial⟩

theorem reading {known : Context → Option α} {ask : TxId → Program (Except Fault α)}
    {learn : Context → α → Context} (hs : c.sealed) (h : ∀ a, known c = some a → P a) :
    (reading finder known ask learn).Recites c P := by
  rw [Recites, Action.reading]
  split
  case h_1 a ha => exact ⟨rfl, fun _ hr => Except.ok.inj hr ▸ h a ha⟩
  case h_2 =>
    rw [if_pos hs]
    exact ⟨rfl, by simp⟩

end Recites

theorem lockFind_recites (hs : c.sealed) (hc : c.Consistent) :
    (lockFind kind finder).Recites c (Finds c.rows finder) :=
  .reading hs fun _ => hc.lockedAnswer?

theorem lockList_recites (hs : c.sealed) (hc : c.Consistent) :
    (lockList kind finder).Recites c (Lists c.rows finder) :=
  .reading hs fun _ => hc.lockedList?

theorem probe_recites (hs : c.sealed) (hc : c.Consistent) :
    (probe finder).Recites c (Finds c.rows finder) :=
  .reading hs fun _ => hc.knownSingle?

theorem find_recites (hs : c.sealed) (hc : c.Consistent) :
    (find finder).Recites c (Finds c.rows finder) :=
  .reading hs fun _ => hc.knownAnswer?

theorem findList_recites (hs : c.sealed) (hc : c.Consistent) :
    (findList finder).Recites c (Lists c.rows finder) :=
  .reading hs fun _ => hc.knownList?

end Action

theorem Reading.recites (h : Reading m) (hs : c.sealed) : m.Recites c fun _ => True := by
  have hany {α : Type} {a : α} : (Pure.pure a : Action α).Recites c fun _ => True := .pure trivial
  induction h
  case pure => exact hany
  case throw => exact .throw
  case bind ihm ihf => exact ihm.bind fun a _ => ihf a
  case log => exact .log
  case lockListAlike key finder f _ ihf =>
    have hlock : (Action.lockList ((c.locks.kindOf? key).getD .readCommitted) finder).Recites c
        fun _ => True := .reading hs fun _ _ => trivial
    exact hlock.bind fun found _ => ihf found
  all_goals exact .reading hs fun _ _ => trivial

namespace Program

-- Log lines and reports leave the store as it is.
theorem Settles.exists_run {Good : α → Prop} {p : Program α} (h : p.Settles Good) (w : World) :
    ∃ a w', p.run w = some (a, w') ∧ w'.store = w.store ∧ Good a := by
  induction p generalizing w
  case done a => exact ⟨a, w, rfl, rfl, h⟩
  case ask r next ih =>
    cases r
    case log line => exact ih () (h.2 ()) { w with log := w.log ++ [line] }
    case report report => exact ih () (h.2 ()) { w with reports := w.reports ++ [report] }
    all_goals exact h.1.elim

end Program

namespace Session.ContextStep

variable {steps : List ContextStep} {step : ContextStep}

-- Steps that buffer a change.
def edits : ContextStep → Bool
  | .upsert _ | .remove _ => true
  | _ => false

-- The known rows with the change made.
def edit (known : Key → Option Row) : ContextStep → Key → Option Row
  | .upsert row => update known row.key (some row)
  | .remove key => update known key none
  | _ => known

-- The reply to a lookup is what the known rows give.
def Tells (known : Key → Option Row) : ContextStep → Reply → Prop
  | .lockFind _ finder, reply | .probe finder, reply | .find finder, reply =>
    ∃ found, Finds known finder found ∧ reply = .row found
  | .lockNode _ finder, reply | .findNode finder, reply =>
    ∃ found, Finds known finder found ∧ reply = .node (found.bind Row.node?)
  | .lockList _ finder, reply | .findList finder, reply =>
    ∃ found, Lists known finder found ∧ reply = .rows found
  | _, _ => True

-- Each reply that is not a fault is what the known rows give with the changes before it made.
inductive Told : (Key → Option Row) → List ContextStep → List (Except Fault Reply) → Prop
  | nil {known : Key → Option Row} : Told known [] []
  | cons {known : Key → Option Row} {step : ContextStep} {steps : List ContextStep}
    {reply : Except Fault Reply} {replies : List (Except Fault Reply)}
    (h : ∀ answer, reply = .ok answer → step.Tells known answer)
    (hs : Told (step.edit known) steps replies) : Told known (step :: steps) (reply :: replies)

-- No change makes two entries of one name in one directory.
def Apart : (Key → Option Row) → List ContextStep → Prop
  | known, [] => NamesApart known
  | known, step :: steps => NamesApart known ∧ Apart (step.edit known) steps

theorem Apart.start (h : Apart known steps) : NamesApart known := by
  cases steps
  case nil => exact h
  case cons => exact h.1

theorem edit_mono {known' : Key → Option Row}
    (hsub : ∀ key row, known key = some row → known' key = some row) :
    ∀ key row, step.edit known key = some row → step.edit known' key = some row := by
  intro key row hrow
  cases step
  case upsert | remove =>
    rw [edit, update_apply] at hrow ⊢
    split
    case isTrue heq => rwa [if_pos heq] at hrow
    case isFalse hne => exact hsub key row (by rwa [if_neg hne] at hrow)
  all_goals exact hsub key row hrow

-- It is enough that the changes keep names apart in all rows.
theorem Apart.mono {known' : Key → Option Row} (h : Apart known' steps)
    (hsub : ∀ key row, known key = some row → known' key = some row) : Apart known steps := by
  induction steps generalizing known known'
  case nil => exact NamesApart.mono h hsub
  case cons step steps ih => exact ⟨NamesApart.mono h.1 hsub, ih h.2 (edit_mono hsub)⟩

-- The rows of a store with the change made.
def applied (rows : Rows) : ContextStep → Rows
  | .upsert row => rows.insert row
  | .remove key => rows.erase key
  | _ => rows

theorem edit_find? : step.edit rows.find? = (step.applied rows).find? := by
  funext key
  cases step
  case upsert row => simp [edit, applied, update_apply, SortedBy.find?_insert, eq_comm]
  case remove => simp [edit, applied, update_apply, SortedBy.find?_erase, eq_comm]
  all_goals rfl

instance decidableApart : ∀ (rows : Rows) (steps : List ContextStep),
    Decidable (Apart rows.find? steps)
  | rows, [] => inferInstanceAs (Decidable (NamesApart rows.find?))
  | rows, step :: steps =>
    have := decidableApart (step.applied rows) steps
    decidable_of_iff (NamesApart rows.find? ∧ Apart (step.applied rows).find? steps)
      (by rw [Apart, edit_find?])

theorem edit_of_looks (h : step.looks) : step.edit known = known := by
  cases step <;> first | rfl | cases h

-- Looking rows up and taking locks leaves the context as it is.
theorem recites (h : step.looks) (hs : c.sealed) (hc : c.Consistent) :
    step.run.Recites c (step.Tells c.rows) := by
  have hnode {m : Action (Option Row)} {finder : Finder} (hm : m.Recites c (Finds c.rows finder)) :
      (m >>= fun found => pure (found.bind Row.node?)).Recites c fun node =>
        ∃ found, Finds c.rows finder found ∧ node = found.bind Row.node? :=
    hm.bind fun found hfound => .pure ⟨found, hfound, rfl⟩
  cases step
  case lockFind => exact (Action.lockFind_recites hs hc).map fun found hfound => ⟨found, hfound, rfl⟩
  case lockNode =>
    exact (hnode (Action.lockFind_recites hs hc)).map fun _ ⟨found, hfound, heq⟩ =>
      ⟨found, hfound, congrArg Reply.node heq⟩
  case lockList => exact (Action.lockList_recites hs hc).map fun found hfound => ⟨found, hfound, rfl⟩
  case probe => exact (Action.probe_recites hs hc).map fun found hfound => ⟨found, hfound, rfl⟩
  case find => exact (Action.find_recites hs hc).map fun found hfound => ⟨found, hfound, rfl⟩
  case findNode =>
    exact (hnode (Action.find_recites hs hc)).map fun _ ⟨found, hfound, heq⟩ =>
      ⟨found, hfound, congrArg Reply.node heq⟩
  case findList => exact (Action.findList_recites hs hc).map fun found hfound => ⟨found, hfound, rfl⟩
  all_goals exact ((reading h).recites hs).mono fun _ _ => trivial

-- After a step, the known rows are as they were but for its change.
structure Follows (step : ContextStep) (c c' : Context) : Prop where
  sealed : c'.sealed
  consistent : c'.Consistent
  rows : c'.rows = step.edit c.rows

theorem run_tells (hs : c.sealed) (hc : c.Consistent) (hnames : NamesApart c.rows)
    (hnames' : NamesApart (step.edit c.rows)) (hstep : step.looks ∨ step.edits) :
    (step.run c).Settles fun (reply, c') => step.Follows c c' ∧
      ∀ answer, reply = .ok answer → step.Tells c.rows answer := by
  obtain hlooks | hedits := hstep
  · refine Keeps.mono (recites hlooks hs hc) (fun _ => id) fun (reply, c') hreply => ?_
    obtain ⟨rfl, htells⟩ := hreply
    exact ⟨⟨hs, hc, (edit_of_looks hlooks).symm⟩, htells⟩
  · cases step
    case upsert row =>
      have hrows : (c.upsert row).rows = edit c.rows (.upsert row) := Context.upsert_rows_eq
      exact ⟨⟨(Context.Edits.upsert row).sealed.trans hs, hc.upsert hnames (hrows ▸ hnames'), hrows⟩,
        fun _ _ => trivial⟩
    case remove key =>
      exact ⟨⟨(Context.Edits.remove key).sealed.trans hs, hc.remove hnames, Context.remove_rows⟩,
        fun _ _ => trivial⟩
    all_goals cases hedits

theorem runAll_told (hs : c.sealed) (hc : c.Consistent) (hnames : Apart c.rows steps)
    (hsteps : ∀ step ∈ steps, step.looks ∨ step.edits) :
    (runAll steps c).Settles fun (replies, _) => Told c.rows steps replies := by
  induction steps generalizing c
  case nil => exact .nil
  case cons step steps ih =>
    obtain ⟨hstep, hlater⟩ := List.forall_mem_cons.mp hsteps
    obtain ⟨hapart, hafter⟩ := hnames
    refine Keeps.bind (run_tells hs hc hapart hafter.start hstep) fun (reply, c') hreply => ?_
    obtain ⟨hfollows, htells⟩ := hreply
    have hrest := ih hfollows.sealed hfollows.consistent (hfollows.rows ▸ hafter) hlater
    exact Keeps.bind hrest fun (replies, _) htold => .cons htells (hfollows.rows ▸ htold)

-- Once the lock phase of a context has ended, no step asks the store for anything. What is read are
-- the rows that were known then, with the changes made that came before.
theorem edits_told {locking : List ContextStep} {replies : List (Except Fault Reply)} {tx : TxId}
    {w w' : World} (hnames : NamesApart w.store.rows.find?) (hlocking : ∀ step ∈ locking, step.looks)
    (hrun : (runAll locking (.new tx)).run w = some ((replies, c), w'))
    (hsteps : ∀ step ∈ steps, step.looks ∨ step.edits) (hapart : Apart c.rows steps) :
    (runAll steps c.endLockPhase).Only Request.Silent ∧ ∀ v : World, ∃ replies c' v',
      (runAll steps c.endLockPhase).run v = some ((replies, c'), v') ∧ v'.store = v.store ∧
        Told c.rows steps replies := by
  have halone := RunsAlone.of_run (runAll_plain hlocking) hrun
  obtain ⟨hc, -, -⟩ := runAll_answered hnames hlocking (.new _ tx) halone
  have htold : (runAll steps c.endLockPhase).Settles fun (replies, _) => Told c.rows steps replies :=
    runAll_told rfl (hc.consistent hnames) hapart hsteps
  refine ⟨htold.mono (fun _ => id) fun _ _ => trivial, fun v => ?_⟩
  obtain ⟨⟨replies, c'⟩, v', hv, hstore, hreplies⟩ := htold.exists_run v
  exact ⟨replies, c', v', hv, hstore, hreplies⟩

def newcomer : Row :=
  .node ⟨⟨3⟩, ⟨1⟩, "f", .file, []⟩

-- The file moves, another one takes its name, and the first one goes.
def rearrange : List ContextStep :=
  [.upsert (.node ⟨⟨2⟩, .root, "g", .file, []⟩), .find (.nodeNamed ⟨1⟩ "f"), .findList (.children ⟨1⟩),
    .upsert newcomer, .findList (.children ⟨1⟩), .remove (.node ⟨2⟩),
    .find (.nodeNamed .root "g"), .find (.nodeNamed ⟨1⟩ "f"),
    .lockFind .write (.nodeNamed ⟨1⟩ "f")]

-- The other file is found by the name and in the list, and only the lock is refused.
theorem edits_told_oneFile : NamesApart oneFile.find? ∧ (∀ step ∈ lookAround, step.looks) ∧
    (∀ step ∈ rearrange, step.looks ∨ step.edits) ∧ ∃ replies c w',
      (runAll lookAround (.new 1)).run { store := .ofRows oneFile } = some ((replies, c), w') ∧
      Apart c.rows rearrange ∧ (runAll rearrange c.endLockPhase).Only Request.Silent ∧
      ∃ replies c' v', (runAll rearrange c.endLockPhase).run w' = some ((replies, c'), v') ∧
        v'.store = w'.store ∧ Told c.rows rearrange replies ∧
        .ok (.row (some newcomer)) ∈ replies ∧ .ok (.rows [newcomer]) ∈ replies := by
  have hnames : NamesApart oneFile.find? := by decide +kernel
  have hlooks : ∀ step ∈ lookAround, step.looks := by decide
  have hsteps : ∀ step ∈ rearrange, step.looks ∨ step.edits := by decide
  have hrows : Apart oneFile.find? rearrange := by decide +kernel
  let w : World := { store := .ofRows oneFile }
  have hfound : ((runAll lookAround (.new 1)).run w).all fun ((_, c), w') =>
      ((runAll rearrange c.endLockPhase).run w').all fun ((replies, _), _) =>
        replies.contains (.ok (.row (some newcomer))) && replies.contains (.ok (.rows [newcomer])) := by
    decide +kernel
  obtain ⟨⟨replies, c⟩, s', halone⟩ :=
    exists_runsAlone (runAll_plain (c := .new 1) hlooks) w.store
  obtain ⟨w', hrun, -⟩ := halone.run
  obtain ⟨hc, -, -⟩ := runAll_answered hnames hlooks (.new _ 1) halone
  have hapart : Apart c.rows rearrange := hrows.mono fun _ _ => hc.row
  obtain ⟨hsilent, htold⟩ := edits_told hnames hlooks hrun hsteps hapart
  obtain ⟨told, c', v', hv, hstore, htold⟩ := htold w'
  simp only [hrun, hv, Option.all_some, Bool.and_eq_true, List.contains_iff_mem] at hfound
  exact ⟨hnames, hlooks, hsteps, replies, c, w', hrun, hapart, hsilent, told, c', v', hv, hstore,
    htold, hfound⟩

end Session.ContextStep

end NamespaceService
