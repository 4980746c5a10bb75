import Mathlib.Data.List.Induction
import NamespaceService.Proofs.Transaction.Refusals

namespace NamespaceService

open Program

namespace Session

namespace ContextStep

variable {step : ContextStep} {c : Context} {rows : Rows}

def change? : ContextStep → Option Change
  | .upsert row => some (.upsert row)
  | .remove key => some (.remove key)
  | _ => none

-- A commit or a rollback.
def ends : ContextStep → Bool
  | .commit | .rollback => true
  | _ => false

theorem learn_changes (ho : c.sealed = false) : (step.learn rows c).changes = c.changes := by
  cases step
  case lockFind => exact Context.Grows.learnLocked.changes
  case lockList => exact Context.Grows.learnLockedList.changes
  case find => exact Context.learn_changes
  case findList => exact (Context.Edits.learnList ho).2
  all_goals rfl

theorem written_changes : (step.written c).changes = c.changes ++ step.change?.toList := by
  cases step
  case upsert => exact Context.upsert_changes
  case remove => exact Context.remove_changes
  all_goals exact (List.append_nil _).symm

theorem change?_of_looks (h : step.looks) : step.change? = none := by
  cases step <;> first | rfl | cases h

end ContextStep

def Reply.changes? : Reply → Option (List Change)
  | .changes found => some found
  | _ => none

theorem Reply.eq_of_changes? {reply : Reply} {changes : List Change}
    (h : reply.changes? = some changes) : reply = .changes changes := by
  cases reply
  case changes => exact congrArg Reply.changes (Option.some.inj h)
  all_goals cases h

namespace Entry

variable {x : Entry} {c c' : Context} {changes : List Change}

-- A commit or a rollback that succeeds.
def Ends (x : Entry) : Prop :=
  x.step.ends ∧ x.reply.isOk

instance : Decidable x.Ends :=
  inferInstanceAs (Decidable (_ ∧ _))

-- The changes that wait after the step.
def waiting (changes : List Change) (x : Entry) : List Change :=
  if x.Ends then [] else changes ++ x.step.change?.toList

-- The changes of the context are gone, though they have neither been committed nor taken back.
def Drops (x : Entry) (c c' : Context) : Prop :=
  ¬x.Ends ∧ c.changes ≠ [] ∧ c'.changes = []

theorem Comes.changes_eq (h : x.Comes c c') : c'.changes = c.changes := by
  cases h
  case answered ho _ _ _ _ => exact ContextStep.learn_changes ho
  all_goals rfl

end Entry

theorem Singly.changes_eq {xs : List Entry} {c c' : Context} {s s' : Store}
    (h : Singly c s xs c' s') : c'.changes = c.changes := by
  obtain ⟨htranscript, hfinds, -, -⟩ := h
  induction htranscript
  case nil => rfl
  case cons hrun _ ih =>
    obtain ⟨hx, hlater⟩ := List.forall_mem_cons.mp hfinds
    exact (ih hlater).trans (Entry.comes hx hrun).changes_eq

namespace Entry

variable {x : Entry} {c c' : Context}

-- What a commit comes to.
inductive Commits (x : Entry) (c : Context) : Context → Prop
  | applied (hreply : x.reply = .ok .done)
    (hrows : x.after.store.rows = x.rows.applyAll c.changes) : x.Commits c { c with changes := [] }
  | unguarded {fault : Fault} (hcovered : c.covered? = .error fault) (hreply : x.reply = .error fault)
    (hrows : x.after.store.rows = x.rows) : x.Commits c c
  | refused {refusal : CommitRefusal} (hcovered : c.covered? = .ok ())
    (hrefused : (x.before.store.commit c.tx c.changes).1 = .error refusal)
    (hreply : x.reply = .error refusal.toFault) (hrows : x.after.store.rows = x.rows) :
    x.Commits c { c with changes := [] }

theorem commits (hstep : x.step = .commit)
    (hrun : (x.step.run c).run x.before = some ((x.reply, c'), x.after)) : x.Commits c c' := by
  have hmap : x.step.run = (fun _ => Reply.done) <$> Action.commit :=
    hstep ▸ (map_eq_pure_bind ..).symm
  have hplain : (x.step.run c).Only Request.Plain := by
    rw [hstep]
    refine .bind (Action.commit_closes.mono fun _ => Request.Closes.plain) fun (r, _) => ?_
    cases r <;> trivial
  have halone := RunsAlone.of_run hplain hrun
  rw [hmap] at halone
  obtain ⟨r, hcommit, hreply⟩ := Action.of_map_alone halone
  obtain ⟨fault, hcovered, rfl, rfl, hsame⟩ | ⟨hcovered, rfl, result, hanswer, rfl⟩ :=
    Action.commit_alone hcommit
  · exact .unguarded hcovered hreply (congrArg Store.rows hsame)
  · cases result
    case ok => exact .applied hreply (Action.commit_rows hcommit).2
    case error refusal =>
      have hrefused := congrArg Prod.fst hanswer
      have hrows := (Store.commit_error hrefused).1
      rw [hanswer] at hrows
      exact .refused hcovered hrefused hreply hrows

theorem Commits.buffer (hstep : x.step = .commit) (h : x.Commits c c') :
    c'.changes = x.waiting c.changes ∨ ¬x.Ends ∧ x.step.change? = none ∧ c'.changes = [] := by
  cases h
  case applied hreply _ =>
    refine .inl (if_pos ?_).symm
    rw [Ends, hstep, hreply]
    exact ⟨rfl, rfl⟩
  case unguarded hreply _ =>
    refine .inl ?_
    rw [waiting, if_neg, hstep]
    · exact (List.append_nil _).symm
    · rw [Ends, hreply]
      exact fun h => Bool.noConfusion h.2
  case refused hreply _ =>
    refine .inr ⟨?_, by rw [hstep]; rfl, rfl⟩
    rw [Ends, hreply]
    exact fun h => Bool.noConfusion h.2

theorem rollback_changes (hstep : x.step = .rollback)
    (hrun : (x.step.run c).run x.before = some ((x.reply, c'), x.after)) : c'.changes = [] := by
  rw [hstep] at hrun
  obtain ⟨⟨⟨r, c₁⟩, w₁⟩, hrollback, hreply⟩ :=
    Option.bind_eq_some_iff.mp ((run_bind (Action.rollback c) _ _).symm.trans hrun)
  obtain ⟨⟨_, _⟩, -, hcleared⟩ :=
    Option.bind_eq_some_iff.mp ((run_bind (Program.rollback c.tx) _ _).symm.trans hrollback)
  cases hcleared
  have hsame := congrArg (fun r => r.map (·.1.2.changes)) hreply
  cases r <;> exact (Option.some.inj hsame).symm

theorem waiting_eq (h : x.step.ends = false) :
    x.waiting changes = changes ++ x.step.change?.toList :=
  if_neg fun hends => Bool.false_ne_true (h.symm.trans hends.1)

theorem kept (hends : x.step.ends = false)
    (hrun : (x.step.run c).run x.before = some ((x.reply, c'), x.after)) :
    c'.changes = x.waiting c.changes := by
  rw [waiting_eq hends]
  by_cases hlooks : x.step.looks
  case pos =>
    obtain ⟨_, hsingly⟩ := exists_singly hlooks hrun
    rw [ContextStep.change?_of_looks hlooks, Option.toList_none, List.append_nil]
    exact hsingly.changes_eq
  case neg =>
    obtain ⟨step, w, reply, w'⟩ := x
    cases step
    case upsert | remove | endLockPhase =>
      rw [(eq_written (by simp [ContextStep.edits]) hrun).1]
      exact ContextStep.written_changes
    case changes =>
      cases hrun
      exact (List.append_nil _).symm
    case commit | rollback => cases hends
    all_goals exact absurd rfl hlooks

-- The context keeps what waits, or drops it.
theorem buffer (hrun : (x.step.run c).run x.before = some ((x.reply, c'), x.after)) :
    c'.changes = x.waiting c.changes ∨ ¬x.Ends ∧ x.step.change? = none ∧ c'.changes = [] := by
  cases hstep : x.step
  case commit => exact hstep ▸ (commits hstep hrun).buffer hstep
  case rollback =>
    have hempty := rollback_changes hstep hrun
    by_cases hends : x.Ends
    case pos => exact .inl (hempty.trans (if_pos hends).symm)
    case neg => exact .inr ⟨hends, rfl, hempty⟩
  all_goals exact .inl (kept (by rw [hstep]; rfl) hrun)

end Entry

-- The changes that wait after the steps, the first of them first.
def waiting (xs : List Entry) : List Change :=
  xs.foldl Entry.waiting []

-- Nothing was dropped since a commit or a rollback last succeeded.
def Intact (c : Context) (xs : List Entry) : Prop :=
  ∀ before x after, xs = before ++ x :: after → (∀ y ∈ after, ¬y.Ends) →
    ∀ c₁ c₂, Transcript c before c₁ → Transcript c₁ [x] c₂ → ¬x.Drops c₁ c₂

namespace Transcript

variable {c c₁ c₂ c' : Context} {x : Entry} {xs : List Entry} {tx : TxId}

theorem single_iff : Transcript c [x] c' ↔
    (x.step.run c).run x.before = some ((x.reply, c'), x.after) where
  mp h := by
    cases h
    case cons hrun h =>
      cases h
      exact hrun
  mpr hrun := .cons hrun .nil

theorem unique (h : Transcript c xs c₁) (h' : Transcript c xs c₂) : c₁ = c₂ := by
  induction h
  case nil =>
    cases h'
    rfl
  case cons hrun _ ih =>
    cases h'
    case cons hrun' hlater =>
      cases hrun.symm.trans hrun'
      exact ih hlater

theorem intact_concat_iff (h : Transcript c xs c₁) (hx : Transcript c₁ [x] c₂) :
    Intact c (xs ++ [x]) ↔ x.Ends ∨ Intact c xs ∧ ¬x.Drops c₁ c₂ := by
  constructor
  case mp =>
    intro hintact
    by_cases hends : x.Ends
    case pos => exact .inl hends
    case neg =>
      refine .inr ⟨fun before y after heq hafter d₁ d₂ hd₁ hd₂ => ?_,
        hintact xs x [] rfl (by simp) c₁ c₂ h hx⟩
      refine hintact before y (after ++ [x]) ?_ ?_ d₁ d₂ hd₁ hd₂
      · rw [heq, List.append_assoc, List.cons_append]
      · simpa [or_imp, forall_and, hends] using hafter
  case mpr =>
    intro hintact before y after heq hafter d₁ d₂ hd₁ hd₂ hdrops
    obtain rfl | ⟨after, last, rfl⟩ := after.eq_nil_or_concat'
    · obtain ⟨rfl, hlast⟩ := List.append_inj' heq rfl
      cases hlast
      obtain hends | ⟨-, hkept⟩ := hintact
      · exact hdrops.1 hends
      · obtain rfl := hd₁.unique h
        obtain rfl := hd₂.unique hx
        exact hkept hdrops
    · rw [← List.cons_append, ← List.append_assoc] at heq
      obtain ⟨rfl, hlast⟩ := List.append_inj' heq rfl
      cases hlast
      obtain hends | ⟨hintact, -⟩ := hintact
      · exact hafter x (by simp) hends
      · exact hintact before y after rfl (fun z hz => hafter z (by simp [hz])) d₁ d₂ hd₁ hd₂ hdrops

-- What the context holds is the end of what waits, and nothing else waits unless it was dropped.
theorem exists_dropped (h : Transcript (.new tx) xs c) :
    ∃ dropped, waiting xs = dropped ++ c.changes ∧ (dropped = [] ↔ Intact (.new tx) xs) := by
  induction xs using List.reverseRecOn generalizing c
  case nil =>
    cases h
    exact ⟨[], rfl, by simp [Intact]⟩
  case append_singleton xs x ih =>
    obtain ⟨c₁, hbefore, hx⟩ := h.of_append
    obtain ⟨dropped, hwaiting, hiff⟩ := ih hbefore
    rw [intact_concat_iff hbefore hx, waiting, List.foldl_concat, ← waiting, hwaiting, ← hiff]
    obtain hkept | ⟨hends, hnone, hempty⟩ := Entry.buffer (single_iff.mp hx)
    · by_cases hends : x.Ends
      case pos =>
        have hnothing : c.changes = [] := hkept.trans (if_pos hends)
        exact ⟨[], by rw [hnothing, Entry.waiting, if_pos hends]; rfl, by simp [hends]⟩
      case neg =>
        have hgrown : c.changes = c₁.changes ++ x.step.change?.toList := hkept.trans (if_neg hends)
        have hdrops : ¬x.Drops c₁ c := by simp [Entry.Drops, hgrown]; tauto
        refine ⟨dropped, ?_, by simp [hends, hdrops]⟩
        rw [Entry.waiting, if_neg hends, hgrown, List.append_assoc]
    · refine ⟨dropped ++ c₁.changes, ?_, by simp [hends, Entry.Drops, hempty]⟩
      rw [Entry.waiting, if_neg hends, hnone, hempty]
      rfl

-- A commit that succeeds applies what the context holds, which is all that waits if and only if
-- nothing was dropped. One that fails applies nothing, and is what drops the changes if the store
-- was asked.
theorem commit_outcome (h : Transcript (.new tx) xs c) (hstep : x.step = .commit)
    (hx : Transcript c [x] c') :
    c.changes <:+ waiting xs ∧ (c.changes = waiting xs ↔ Intact (.new tx) xs) ∧
      (x.reply = .ok .done ∧ x.after.store.rows = x.rows.applyAll c.changes ∧ c'.changes = [] ∨
        ∃ fault, x.reply = .error fault ∧ x.after.store.rows = x.rows ∧
          (c.covered? = .error fault ∧ c' = c ∨
            c.covered? = .ok () ∧ c'.changes = [] ∧
              (x.before.store.commit c.tx c.changes).1.isOk = false)) := by
  obtain ⟨dropped, hwaiting, hiff⟩ := h.exists_dropped
  refine ⟨⟨dropped, hwaiting.symm⟩, ?_, ?_⟩
  · rw [← hiff, hwaiting, List.self_eq_append_left]
  · cases Entry.commits hstep (single_iff.mp hx)
    case applied hreply hrows => exact .inl ⟨hreply, hrows, rfl⟩
    case unguarded hcovered hreply hrows => exact .inr ⟨_, hreply, hrows, .inl ⟨hcovered, rfl⟩⟩
    case refused hcovered hrefused hreply hrows =>
      exact .inr ⟨_, hreply, hrows, .inr ⟨hcovered, rfl, by rw [hrefused]; rfl⟩⟩

end Transcript

def newDirectory : Change :=
  .upsert (.node ⟨⟨1⟩, .root, "a", .directory, []⟩)

theorem commit_outcome_newDirectory : ∃ xs x c c', Transcript (.new 1) xs c ∧
    Transcript c [x] c' ∧ waiting xs = [newDirectory] ∧ Intact (.new 1) xs ∧
    x.after.store.rows = x.rows.applyAll [newDirectory] ∧ c'.changes = [] := by
  obtain ⟨xs, c', h, hsteps, hcheck⟩ := Transcript.exists_checked
    [.upsert (.node ⟨⟨1⟩, .root, "a", .directory, []⟩), .commit] (.new 1) { store := .new }
    (fun xs _ => xs.all (·.reply.isOk)) (by decide +kernel)
  obtain ⟨x, y, rfl, hx, hy⟩ := exists_pair hsteps
  have h : Transcript (.new 1) ([x] ++ [y]) c' := h
  obtain ⟨c, hbefore, hlast⟩ := h.of_append
  have hends : x.step.ends = false := by rw [hx]; rfl
  have hwaiting : waiting [x] = [newDirectory] :=
    (Entry.waiting_eq hends).trans (by rw [hx]; rfl)
  have hchanges : c.changes = waiting [x] := Entry.kept hends (Transcript.single_iff.mp hbefore)
  obtain ⟨-, hintact, ⟨-, hrows, hempty⟩ | ⟨_, hfault, -⟩⟩ := hbefore.commit_outcome hy hlast
  · refine ⟨[x], y, c, c', hbefore, hlast, hwaiting, hintact.mp hchanges, ?_, hempty⟩
    rw [hrows, hchanges, hwaiting]
  · simp [hfault, Except.isOk, Except.toBool] at hcheck

-- The store refuses the first commit. The second one succeeds, and the directory is not there.
theorem newDirectory_dropped : ∃ x y z last c, Transcript (.new 1) [x, y, z, last] c ∧
    [x, y, z, last].map Entry.step =
      [.upsert (.node ⟨⟨1⟩, .root, "a", .directory, []⟩), .commit, .changes, .commit] ∧
    waiting [x, y, z] = [newDirectory] ∧ y.reply.isOk = false ∧ z.reply = .ok (.changes []) ∧
    last.reply.isOk ∧ last.after.store.rows.find? newDirectory.key = none := by
  obtain ⟨xs, c, h, hsteps, hcheck⟩ := Transcript.exists_checked
    [.upsert (.node ⟨⟨1⟩, .root, "a", .directory, []⟩), .commit, .changes, .commit] (.new 1)
    { store := Store.new.inject .commit (.unavailable "down") }
    (fun xs _ => waiting (xs.take 3) = [newDirectory] &&
      xs.map (fun x => (x.reply.isOk, x.reply.toOption.bind Reply.changes?)) =
        [(true, none), (false, none), (true, some []), (true, none)] &&
      xs.all (·.after.store.rows.find? newDirectory.key = none)) (by decide +kernel)
  obtain ⟨x, _, rfl, -, h₁⟩ := List.map_eq_cons_iff.mp hsteps
  obtain ⟨y, _, rfl, -, h₂⟩ := List.map_eq_cons_iff.mp h₁
  obtain ⟨z, _, rfl, -, h₃⟩ := List.map_eq_cons_iff.mp h₂
  obtain ⟨last, rfl, -⟩ := List.map_eq_singleton_iff.mp h₃
  simp only [Bool.and_eq_true, decide_eq_true_eq, List.map_cons, List.map_nil, List.cons.injEq,
    Prod.mk.injEq, List.all_cons, List.all_nil] at hcheck
  obtain ⟨⟨hwaiting, -, ⟨hrefused, -⟩, ⟨-, hchanges⟩, ⟨hok, -⟩, -⟩, -, -, -, hrows, -⟩ := hcheck
  refine ⟨x, y, z, last, c, h, hsteps, hwaiting, hrefused, ?_, hok, hrows⟩
  cases hreply : z.reply
  case error => simp [hreply, Except.toOption] at hchanges
  case ok reply =>
    rw [hreply] at hchanges
    rw [Reply.eq_of_changes? hchanges]

end Session

end NamespaceService
