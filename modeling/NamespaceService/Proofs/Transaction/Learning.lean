import NamespaceService.Proofs.Transaction.Grants
import NamespaceService.Proofs.Transaction.Transcripts

namespace NamespaceService

open Session

def Event.list? : Event → Option Finder
  | .findList _ _ finder => some finder
  | _ => none

namespace Context

variable {c c' c'' : Context} {rows : Rows} {finder : Finder} {kind : LockKind} {row : Row}
  {found : List Row} {step : ContextStep} {tx : TxId} {event : Event}

-- Rows and their owners are kept as if the rows had been read one after another.
structure Kept (found : List Row) (c c' : Context) : Prop where
  rows : c'.rows = (found.foldl remember c).rows
  origins : c'.origins = (found.foldl remember c).origins

theorem Kept.of_learn (h : step.call? tx = some event) :
    Kept (rows.given event) c (step.learn rows c) := by
  cases step
  all_goals cases h
  case lockFind kind finder =>
    rw [ContextStep.learn, Rows.given]
    cases rows.lookup finder
    case some => exact ⟨rfl, rfl⟩
    case none =>
      rw [learnLocked]
      split <;> exact ⟨rfl, rfl⟩
  case lockList kind finder =>
    obtain ⟨locks, hlocks⟩ :=
      exists_learnLockedList c kind finder (rows.lookupList finder)
    rw [ContextStep.learn, hlocks]
    exact ⟨rfl, rfl⟩
  case probe => exact ⟨rfl, rfl⟩
  case find finder =>
    rw [ContextStep.learn, Rows.given]
    cases rows.lookup finder
    case none => exact ⟨rfl, rfl⟩
    case some =>
      rw [learn_some]
      exact ⟨rfl, rfl⟩
  case findList => exact ⟨rfl, rfl⟩

-- Rows that are known stay known, and so does which lookups find them.
structure Recollects (c c' : Context) : Prop where
  row {key : Key} {row : Row} : c.rows key = some row → c'.rows key = some row
  single {finder : Finder} {key : Key} : c.singles finder = some (some key) →
    c'.singles finder = some (some key)

namespace Recollects

theorem of_eq (hr : c'.rows = c.rows) (hs : c'.singles = c.singles) : c.Recollects c' where
  row hrow := hr ▸ hrow
  single hkey := hs ▸ hkey

theorem refl (c : Context) : c.Recollects c :=
  of_eq rfl rfl

theorem trans (h : c.Recollects c') (h' : c'.Recollects c'') : c.Recollects c'' where
  row hrow := h'.row (h.row hrow)
  single hkey := h'.single (h.single hkey)

theorem setSingle {found? : Option Key}
    (h : ∀ key, c.singles finder = some (some key) → found? = some key) :
    c.Recollects (c.setSingle finder found?) where
  row hrow := hrow
  single {f key} hkey := by
    rw [setSingle_singles]
    split
    case isTrue heq => rw [h key (heq ▸ hkey)]
    case isFalse => exact hkey

end Recollects

namespace Reflects

theorem recollects_remember (h : c.Reflects rows) (hrow : row ∈ rows.toList) :
    c.Recollects (c.remember row) where
  row := h.remember_row hrow
  single {f key} hkey := by
    rw [remember_singles, hkey]
    split <;> rfl

theorem key_of_single (h : c.Reflects rows) {key : Key} (hkey : c.singles finder = some (some key)) :
    (rows.lookup finder).map Row.key = some key := by
  obtain ⟨row, hlookup, rfl, -⟩ := h.single hkey
  rw [hlookup, Option.map_some]

theorem recollects_setSingle (h : c.Reflects rows) (finder : Finder) :
    c.Recollects (c.setSingle finder ((rows.lookup finder).map Row.key)) :=
  .setSingle fun _ => h.key_of_single

theorem recollects_absent (h : c.Reflects rows) (hlookup : rows.lookup finder = none) :
    c.Recollects (c.setSingle finder none) := by
  have hset := h.recollects_setSingle finder
  rwa [hlookup] at hset

theorem recollects_learnRow (h : c.Reflects rows) (hnames : NamesApart rows.find?)
    (hlookup : rows.lookup finder = some row) :
    c.Recollects ((c.remember row).setSingle finder (some row.key)) := by
  have hrow := (Rows.mem_of_lookup hlookup).1
  have hset := (h.remember hnames hrow).recollects_setSingle finder
  rw [hlookup] at hset
  exact (h.recollects_remember hrow).trans hset

theorem recollects_learnLocked (h : c.Reflects rows) (hnames : NamesApart rows.find?) :
    c.Recollects (c.learnLocked kind finder (rows.lookup finder)) := by
  cases hlookup : rows.lookup finder
  case some row => exact (h.recollects_learnRow hnames hlookup).trans (.of_eq rfl rfl)
  case none =>
    rw [Context.learnLocked]
    split
    case h_1 => exact (h.recollects_absent hlookup).trans (.of_eq rfl rfl)
    case h_2 => exact h.recollects_absent hlookup

theorem recollects_learn (h : c.Reflects rows) (hnames : NamesApart rows.find?) :
    c.Recollects (c.learn finder (rows.lookup finder)) := by
  cases hlookup : rows.lookup finder
  case some row => exact learn_some ▸ h.recollects_learnRow hnames hlookup
  case none => exact h.recollects_absent hlookup

theorem recollects_foldl_remember (h : c.Reflects rows) (hnames : NamesApart rows.find?)
    (hmem : ∀ row ∈ found, row ∈ rows.toList) : c.Recollects (found.foldl Context.remember c) := by
  induction found generalizing c
  case nil => exact .refl c
  case cons first found ih =>
    obtain ⟨hfirst, hlater⟩ := List.forall_mem_cons.mp hmem
    exact (h.recollects_remember hfirst).trans (ih (h.remember hnames hfirst) hlater)

theorem recollects_learnList (h : c.Reflects rows) (hnames : NamesApart rows.find?) :
    c.Recollects (c.learnList finder (rows.lookupList finder)) :=
  (h.recollects_foldl_remember hnames fun _ hrow => (Rows.mem_lookupList_iff.mp hrow).1).trans
    (.of_eq rfl rfl)

theorem recollects_learnLockedList (h : c.Reflects rows) (hnames : NamesApart rows.find?) :
    c.Recollects (c.learnLockedList kind finder (rows.lookupList finder)) := by
  obtain ⟨locks, hlocks⟩ := exists_learnLockedList c kind finder (rows.lookupList finder)
  rw [hlocks]
  exact (h.recollects_learnList hnames).trans (.of_eq rfl rfl)

theorem step_learn (h : c.Reflects rows) (hnames : NamesApart rows.find?) :
    (step.learn rows c).Reflects rows ∧ c.Recollects (step.learn rows c) := by
  cases step
  case lockFind => exact ⟨h.learnLocked hnames, h.recollects_learnLocked hnames⟩
  case lockList => exact ⟨h.learnLockedList hnames, h.recollects_learnLockedList hnames⟩
  case find => exact ⟨h.learn hnames, h.recollects_learn hnames⟩
  case findList => exact ⟨h.learnList hnames, h.recollects_learnList hnames⟩
  all_goals exact ⟨h, .refl c⟩

end Reflects

theorem foldl_remember_lists : (found.foldl remember c).lists = c.lists := by
  induction found generalizing c
  case nil => rfl
  case cons row found ih => exact ih

theorem learnList_lists {f : Finder} : (c.learnList finder found).lists f =
    if f = finder then some (found.map Row.key) else c.lists f := by
  rw [learnList, setList, foldl_remember_lists]

theorem learn_lists {found : Option Row} : (c.learn finder found).lists = c.lists := by
  cases found <;> rfl

end Context

namespace Session

namespace ContextStep

variable {step : ContextStep} {rows : Rows} {tx : TxId} {event : Event} {c : Context}

def takesLock : ContextStep → Bool
  | .lockFind .. | .lockList .. => true
  | _ => false

theorem learn_locks (h : step.call? tx = some event) (ho : c.sealed = false) :
    (step.learn rows c).locks =
      c.locks.recordAll (if step.takesLock then rows.granted event else []) := by
  cases step
  all_goals cases h
  case lockFind => exact Context.learnLocked_locks
  case lockList => exact Context.learnLockedList_locks
  case probe => rfl
  case find => exact (Context.Edits.learn ho).locks
  case findList => exact (Context.Edits.learnList ho).1.locks

theorem learn_list {finder : Finder} (h : step.call? tx = some event) :
    (step.learn rows c).lists finder =
      if event.list? = some finder then some ((rows.lookupList finder).map Row.key)
      else c.lists finder := by
  have hlist {finder' : Finder} : (c.learnList finder' (rows.lookupList finder')).lists finder =
      if some finder' = some finder then some ((rows.lookupList finder).map Row.key)
      else c.lists finder := by
    rw [Context.learnList_lists]
    by_cases heq : finder = finder'
    case pos => simp [heq]
    case neg => simp [heq, Ne.symm heq]
  cases step
  all_goals cases h
  case lockFind => exact congrFun Context.learnLocked_lists finder
  case lockList kind finder' =>
    obtain ⟨locks, hlocks⟩ :=
      Context.exists_learnLockedList c kind finder' (rows.lookupList finder')
    rw [learn, hlocks]
    exact hlist
  case probe => rfl
  case find => exact congrFun Context.learn_lists finder
  case findList => exact hlist

end ContextStep

end Session

end NamespaceService
