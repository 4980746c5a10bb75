import NamespaceService.Proofs.Namespace.Counters
import NamespaceService.Proofs.Namespace.Refinement

namespace NamespaceService.Session.NamespaceOperation

open Namespace UnitOfWork

abbrev History := List (NamespaceOperation × Except Stop Value)

-- A new store that has had this history has these rows.
inductive Leads : History → Rows → Prop
  | new : Leads [] Store.new.rows
  | step {past : History} {rows : Rows} (h : Leads past rows) (op : NamespaceOperation) :
    Leads (past ++ [(op, (op.outcome false rows).map Effect.result)])
      (rowsAfter rows (op.outcome false rows))

-- The holder has made a file under this very path.
def Opened (past : History) (path holder : String) : Prop :=
  ∃ id, (.createFile path holder, .ok (.id id)) ∈ past

variable {past before after : History} {rows : Rows} {path holder : String} {p : Position}
  {op : NamespaceOperation} {config : TransactionConfig} {w : World}

theorem opened_concat {result : Except Stop Value} : Opened (past ++ [(op, result)]) path holder ↔
    Opened past path holder ∨ ∃ id, op = .createFile path holder ∧ result = .ok (.id id) := by
  simp only [Opened, List.mem_append, List.mem_singleton, Prod.mk.injEq, exists_or, eq_comm]

-- Ids were given in the history up to this number, and each of them once.
structure History.UpTo (past : History) (nodes : Nat) : Prop where
  le {e : NamespaceOperation × Except Stop Value} {id : NodeId} : e ∈ past → e.2 = .ok (.id id) →
    id.value.toNat ≤ nodes
  once {d e : NamespaceOperation × Except Stop Value} {id : NodeId} : d ∈ past → e ∈ past →
    d.2 = .ok (.id id) → e.2 = .ok (.id id) → d = e

theorem History.UpTo.nil : History.UpTo [] 0 where
  le h := absurd h List.not_mem_nil
  once h := absurd h List.not_mem_nil

-- An id that is given next is above all others.
theorem History.UpTo.concat {nodes nodes' : Nat} {result : Except Stop Value} (h : past.UpTo nodes)
    (hle : nodes ≤ nodes') (hnew : ∀ id, result = .ok (.id id) →
      nodes < id.value.toNat ∧ id.value.toNat ≤ nodes') :
    History.UpTo (past ++ [(op, result)]) nodes' where
  le he heid := by
    obtain he | he := List.mem_append.mp he
    · exact (h.le he heid).trans hle
    · cases List.mem_singleton.mp he
      exact (hnew _ heid).2
  once hd he hdid heid := by
    obtain hd | hd := List.mem_append.mp hd
    all_goals obtain he | he := List.mem_append.mp he
    · exact h.once hd he hdid heid
    · cases List.mem_singleton.mp he
      exact absurd (h.le hd hdid) (Nat.not_le.mpr (hnew _ heid).1)
    · cases List.mem_singleton.mp hd
      exact absurd (h.le he heid) (Nat.not_le.mpr (hnew _ hdid).1)
    · exact (List.mem_singleton.mp hd).trans (List.mem_singleton.mp he).symm

-- An operation takes a step of the tree, or a counter is at its last value and nothing happens.
theorem outcome_cases (h : rows.Arranged) (op : NamespaceOperation) :
    (∃ h' : (rowsAfter rows (op.outcome false rows)).Arranged,
      (rows.tree h).Step op ((op.outcome false rows).map Effect.result)
        ((rowsAfter rows (op.outcome false rows)).tree h')) ∨
      (rows.tree h).Allows op ∧ (op.outcome false rows).map Effect.result = .error .overflow ∧
        rowsAfter rows (op.outcome false rows) = rows := by
  refine (outcome_carries h op).imp_right fun hover => ⟨hover.allowed, ?_⟩
  rw [hover.outcome_eq]
  exact ⟨rfl, rfl⟩

namespace Leads

theorem arranged (h : Leads past rows) : rows.Arranged := by
  induction h
  case new => exact Rows.arranged_new
  case step op ih =>
    obtain ⟨h', -⟩ | ⟨-, -, hrows⟩ := outcome_cases ih op
    · exact h'
    · rw [hrows]
      exact ih

theorem execute (h : Leads past w.store.rows) (hcalm : w.store.Calm) (op : NamespaceOperation)
    (config : TransactionConfig) : ∃ w',
    (op.execute config).run w =
      some ((op.outcome false w.store.rows).map Effect.result, w') ∧
      w'.store.Calm ∧ w'.store.rows = rowsAfter w.store.rows (op.outcome false w.store.rows) :=
  run_eq op config w hcalm h.arranged.hierarchy
    (outcome_eq_free h.arranged.numbered _)

theorem executeAll (h : Leads past w.store.rows) (hcalm : w.store.Calm)
    (ops : List (NamespaceOperation × TransactionConfig)) : ∃ results w',
    (executeAll ops).run w = some (results, w') ∧ w'.store.Calm ∧ results.length = ops.length ∧
      Leads (past ++ (ops.map Prod.fst).zip results) w'.store.rows := by
  induction ops generalizing past w
  case nil => exact ⟨[], w, rfl, hcalm, rfl, by simpa using h⟩
  case cons op ops ih =>
    obtain ⟨op, config⟩ := op
    obtain ⟨w₁, hrun, hcalm₁, hrows₁⟩ := h.execute hcalm op config
    obtain ⟨results, w', hrest, hcalm', hlength, hleads⟩ := ih (hrows₁ ▸ h.step op) hcalm₁
    refine ⟨(op.outcome false w.store.rows).map Effect.result :: results, w', ?_, hcalm',
      congrArg Nat.succ hlength, ?_⟩
    · rw [executeAll_cons hrun, hrest]
      rfl
    · simpa using hleads

-- A lease covers the paths under which its holder has made files, and no others.
theorem leased_iff (h : Leads past rows) :
    (leaseIn holder rows).any (·.covers path) ↔ Opened past path holder := by
  induction h
  case new =>
    have hleased : (Store.new.rows.tree Rows.arranged_new).leased holder path ↔ False := by
      rw [Rows.tree_new]
      rfl
    exact hleased.trans (by simp [Opened])
  case step past rows h op ih =>
    rw [opened_concat, ← ih]
    obtain ⟨h', hstep⟩ | ⟨-, hresult, hrows⟩ := outcome_cases h.arranged op
    · exact hstep.leased_iff
    · rw [hresult, hrows]
      simp

-- Every file has been made.
theorem made {n : Node} (h : Leads past rows) (hn : rows.place p = some n) (hfile : n.isFile) :
    ∃ path holder, (.createFile path holder, .ok (.id n.id)) ∈ past := by
  induction h generalizing p n
  case new =>
    have hroot := eq_root_of_mem_new (Rows.mem_of_place hn)
    cases hroot ▸ hfile
  case step past rows h op ih =>
    obtain ⟨h', hstep⟩ | ⟨-, -, hrows⟩ := outcome_cases h.arranged op
    case inr =>
      obtain ⟨path, holder, hmem⟩ := ih (hrows ▸ hn) hfile
      exact ⟨path, holder, List.mem_append_left _ hmem⟩
    case inl =>
      have hentry := congrArg (Option.map Node.entry) hn
      obtain ⟨q, d, hd, hkind, hid⟩ | ⟨path, holder, hop, hresult⟩ :=
        hstep.file_cases hentry (of_decide_eq_true hfile)
      · obtain ⟨m, hm, rfl⟩ := Option.map_eq_some_iff.mp hd
        obtain ⟨path, holder, hmem⟩ := ih hm (decide_eq_true hkind)
        have hid : m.id = n.id := hid
        exact ⟨path, holder, List.mem_append_left _ (hid ▸ hmem)⟩
      · refine ⟨path, holder, List.mem_append_right _ (List.mem_singleton.mpr ?_)⟩
        rw [← hop, hresult]
        rfl

-- What was made at a path is there as long as nothing takes it away.
theorem kept {id : NodeId} (h : Leads past rows) (hp : Path.components path = .ok p)
    (hpast : past = before ++ (.createFile path holder, .ok (.id id)) :: after)
    (hafter : ∀ e ∈ after, ¬FileTree.Displaces p e.1 e.2) :
    ∃ n, rows.place p = some n ∧ n.id = id := by
  induction h generalizing after
  case new => simp at hpast
  case step past rows h op ih =>
    obtain rfl | ⟨rest, e, rfl⟩ := List.eq_nil_or_concat' after
    case inl =>
      obtain ⟨-, heq⟩ := List.append_inj' hpast rfl
      obtain ⟨rfl, hresult⟩ := Prod.mk.inj (List.cons.inj heq).1
      obtain ⟨h', hstep⟩ | ⟨-, hover, -⟩ := outcome_cases h.arranged (.createFile path holder)
      · rw [hresult] at hstep
        obtain ⟨n, hn, heq⟩ := Option.map_eq_some_iff.mp (hstep.created hp)
        exact ⟨n, hn, congrArg Entry.id heq⟩
      · cases hresult.symm.trans hover
    case inr =>
      rw [← List.cons_append, ← List.append_assoc] at hpast
      obtain ⟨hpast, heq⟩ := List.append_inj' hpast rfl
      subst hpast
      obtain rfl := (List.cons.inj heq).1
      obtain ⟨n, hn, rfl⟩ := ih rfl fun e he => hafter e (List.mem_append_left _ he)
      obtain ⟨h', hstep⟩ | ⟨-, -, hrows⟩ := outcome_cases h.arranged op
      · have hkept := hafter _ (List.mem_append_right _ (List.mem_singleton.mpr rfl))
        obtain ⟨e', he', hid⟩ := hstep.kept (congrArg (Option.map Node.entry) hn) hkept
        obtain ⟨m, hm, rfl⟩ := Option.map_eq_some_iff.mp he'
        exact ⟨m, hm, hid⟩
      · exact ⟨n, by rw [hrows, hn], rfl⟩

theorem counts (h : Leads past rows) : ∃ nodes blocks, rows.Counts nodes blocks ∧ past.UpTo nodes := by
  induction h
  case new => exact ⟨0, 0, .new, .nil⟩
  case step past rows h op ih =>
    obtain ⟨nodes, blocks, hcounts, hpast⟩ := ih
    cases houtcome : op.outcome false rows
    case error stop => exact ⟨nodes, blocks, hcounts, hpast.concat le_rfl nofun⟩
    case ok effect =>
      have hcounted := outcome_counted houtcome
      refine ⟨_, _, hcounted.counts hcounts, hpast.concat (Nat.le_add_right ..) fun id heq => ?_⟩
      have hresult : effect.result = .id id := Except.ok.inj heq
      rw [hresult] at hcounted
      have hmakes := hcounted.makesNode
      obtain ⟨_, heq, hid⟩ := hcounted.node_eq hcounts hmakes
      cases heq
      simp only [hmakes, if_true]
      omega

-- No id is given twice.
theorem once {d e : NamespaceOperation × Except Stop Value} {id : NodeId} (h : Leads past rows)
    (hd : d ∈ past) (he : e ∈ past) (hdid : d.2 = .ok (.id id)) (heid : e.2 = .ok (.id id)) :
    d = e :=
  have ⟨_, _, _, hpast⟩ := h.counts
  hpast.once hd he hdid heid

end Leads

-- What comes of operations from a new store: the results, and the rows after so many of them.
structure Course (ops : List (NamespaceOperation × TransactionConfig)) where
  results : List (Except Stop Value)
  rows : Nat → Rows
  run (n : Nat) : ∃ w, (executeAll (ops.take n)).run { store := .new } = some (results.take n, w) ∧
    w.store.rows = rows n

theorem executeAll_append (ops rest : List (NamespaceOperation × TransactionConfig)) (w : World) :
    (executeAll (ops ++ rest)).run w = ((executeAll ops).run w).bind fun (results, w') =>
      ((executeAll rest).run w').map fun (more, w'') => (results ++ more, w'') := by
  induction ops generalizing w
  case nil => simp [executeAll]
  case cons op ops ih =>
    obtain ⟨op, config⟩ := op
    cases hrun : (op.execute config).run w
    case none => simp [executeAll, Program.run_bind, hrun]
    case some ended =>
      obtain ⟨result, w₁⟩ := ended
      rw [List.cons_append, executeAll_cons hrun, executeAll_cons hrun, ih]
      simp [Option.map_bind, Option.bind_map, Function.comp_def]

namespace Course

variable {ops : List (NamespaceOperation × TransactionConfig)} {n : Nat}

def history (course : Course ops) (n : Nat) : History :=
  ((ops.take n).map Prod.fst).zip (course.results.take n)

theorem exists_course (ops : List (NamespaceOperation × TransactionConfig)) :
    Nonempty (Course ops) := by
  have hnew (ops : List (NamespaceOperation × TransactionConfig)) :=
    Leads.new.executeAll (w := { store := .new }) .new ops
  obtain ⟨results, w, hrun, -, -, -⟩ := hnew ops
  have hprefix (n : Nat) : ∃ w',
      (executeAll (ops.take n)).run { store := .new } = some (results.take n, w') := by
    obtain ⟨first, w', hfirst, hcalm, hlength, hleads⟩ := hnew (ops.take n)
    obtain ⟨more, w'', hmore, -, hlength', -⟩ := hleads.executeAll hcalm (ops.drop n)
    have hwhole := executeAll_append (ops.take n) (ops.drop n) { store := .new }
    simp only [List.take_append_drop, hrun, hfirst, hmore, Option.bind_some, Option.map_some,
      Option.some.injEq, Prod.mk.injEq] at hwhole
    rw [List.length_take] at hlength
    rw [List.length_drop] at hlength'
    have htake : results.take n = first := by
      rw [hwhole.1, List.take_append, List.take_of_length_le (by omega), List.append_right_eq_self,
        List.take_eq_nil_iff, ← List.length_eq_zero_iff]
      omega
    exact ⟨w', htake ▸ hfirst⟩
  choose world hworld using hprefix
  exact ⟨⟨results, fun n => (world n).store.rows, fun n => ⟨world n, hworld n, rfl⟩⟩⟩

-- What is known about a course after so many operations.
theorem leads_run (course : Course ops) (n : Nat) : ∃ w,
    (executeAll (ops.take n)).run { store := .new } = some (course.results.take n, w) ∧
      w.store.rows = course.rows n ∧ w.store.Calm ∧ Leads (course.history n) w.store.rows := by
  obtain ⟨w, hrun, hrows⟩ := course.run n
  obtain ⟨results, w', hrun', hcalm, -, hleads⟩ :=
    Leads.new.executeAll (w := { store := .new }) .new (ops.take n)
  obtain ⟨rfl, rfl⟩ := Prod.mk.inj (Option.some.inj (hrun.symm.trans hrun'))
  exact ⟨w, hrun, hrows, hcalm, hleads⟩

theorem leads (course : Course ops) (n : Nat) : Leads (course.history n) (course.rows n) := by
  obtain ⟨w, -, hrows, -, hleads⟩ := course.leads_run n
  exact hrows ▸ hleads

theorem rows_zero (course : Course ops) : course.rows 0 = Store.new.rows := by
  obtain ⟨w, hrun, hrows⟩ := course.run 0
  cases hrun
  exact hrows.symm

-- The next operation comes to its outcome on the rows as they are.
theorem step (course : Course ops) {config : TransactionConfig} (h : ops[n]? = some (op, config)) :
    course.results[n]? = some ((op.outcome false (course.rows n)).map Effect.result) ∧
      course.rows (n + 1) = rowsAfter (course.rows n) (op.outcome false (course.rows n)) := by
  obtain ⟨w, hrun, hrows, hcalm, hleads⟩ := course.leads_run n
  obtain ⟨w', hrun', -, hrows'⟩ := hleads.execute hcalm op config
  obtain ⟨w₁, hrun₁, hrows₁⟩ := course.run (n + 1)
  rw [List.take_add_one, h, Option.toList_some, executeAll_append, hrun, Option.bind_some] at hrun₁
  simp only [executeAll_cons hrun'] at hrun₁
  obtain ⟨hresults, rfl⟩ := Prod.mk.inj (Option.some.inj hrun₁)
  rw [List.take_add_one, List.append_cancel_left_eq] at hresults
  rw [← hrows₁, hrows', ← hrows]
  exact ⟨Option.toList_eq_singleton_iff.mp hresults.symm, rfl⟩

-- Nothing comes after the last one.
theorem rows_after (course : Course ops) (h : ops[n]? = none) :
    course.results[n]? = none ∧ course.rows (n + 1) = course.rows n := by
  obtain ⟨w, hrun, hrows⟩ := course.run n
  obtain ⟨w₁, hrun₁, hrows₁⟩ := course.run (n + 1)
  rw [List.take_add_one, h, Option.toList_none, List.append_nil, hrun] at hrun₁
  obtain ⟨hresults, rfl⟩ := Prod.mk.inj (Option.some.inj hrun₁)
  rw [List.take_add_one, List.self_eq_append_right] at hresults
  exact ⟨Option.toList_eq_nil_iff.mp hresults, hrows₁.symm.trans hrows⟩

end Course

end NamespaceService.Session.NamespaceOperation
