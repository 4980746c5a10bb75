import NamespaceService.Proofs.Namespace.Tree
import NamespaceService.Proofs.Store.Exclusion
import NamespaceService.Proofs.Transaction.Attempt
import NamespaceService.Proofs.Transaction.Solo
import NamespaceService.Proofs.Transaction.Tracking

namespace NamespaceService

namespace Change

-- The row that the change leaves under its key.
def row? : Change → Option Row
  | .upsert row => some row
  | .remove _ => none

end Change

namespace Rows

variable {rows : Rows} {changes : List Change} {key : Key}

theorem find?_apply_self (change : Change) : (rows.apply change).find? change.key = change.row? := by
  cases change
  case upsert row => exact (SortedBy.find?_insert ..).trans (if_pos rfl)
  case remove k => exact (SortedBy.find?_erase ..).trans (if_pos rfl)

-- What has become of a row is the doing of the last change to it.
theorem exists_last_change (h : (rows.applyAll changes).find? key ≠ rows.find? key) :
    ∃ change ∈ changes, change.key = key ∧ (rows.applyAll changes).find? key = change.row? := by
  induction changes generalizing rows
  case nil => exact absurd rfl h
  case cons change changes ih =>
    by_cases hlater : ((rows.apply change).applyAll changes).find? key = (rows.apply change).find? key
    case neg =>
      obtain ⟨last, hmem, hlast⟩ := ih hlater
      exact ⟨last, List.mem_cons_of_mem _ hmem, hlast⟩
    case pos =>
      by_cases hkey : change.key = key
      case neg => exact absurd (hlater.trans (find?_apply hkey)) h
      case pos =>
        subst hkey
        exact ⟨change, List.mem_cons_self, rfl, hlater.trans (find?_apply_self change)⟩

end Rows

namespace Context

variable {c c' : Context} {rows : Rows} {change : Change} {key owner : Key} {row : Row}
  {kind : LockKind} {finder : Finder}

def Recalls (c : Context) (rows : Rows) : Prop :=
  ∀ key owner, c.origins key = some owner → ∃ row, rows.find? key = some row ∧ row.owner? = owner

namespace Recalls

theorem new (rows : Rows) (tx : TxId) : (Context.new tx).Recalls rows :=
  nofun

theorem of_eq (h : c.Recalls rows) (ho : c'.origins = c.origins) : c'.Recalls rows :=
  fun key owner hkey => h key owner (ho ▸ hkey)

-- The owner that is recalled first stays, and it is the same one.
theorem remember (h : c.Recalls rows) (hrow : row ∈ rows.toList) : (c.remember row).Recalls rows := by
  intro key owner hkey
  obtain hkey | ⟨rfl, rfl⟩ := origin_of_remember hkey
  · exact h key owner hkey
  · exact ⟨row, SortedBy.find?_of_mem hrow, rfl⟩

theorem upsert (h : c.Recalls rows) : (c.upsert row).Recalls rows := by
  refine h.of_eq ?_
  rw [Context.upsert]
  split <;> rfl

theorem remove (h : c.Recalls rows) : (c.remove key).Recalls rows := by
  refine h.of_eq ?_
  rw [Context.remove]
  split <;> rfl

theorem learn (h : c.Recalls rows) : (c.learn finder (rows.lookup finder)).Recalls rows := by
  cases hfound : rows.lookup finder
  case none => exact h.of_eq rfl
  case some row => exact remember (h.of_eq rfl) (Rows.mem_of_lookup hfound).1

theorem learnLocked (h : c.Recalls rows) :
    (c.learnLocked kind finder (rows.lookup finder)).Recalls rows := by
  cases hfound : rows.lookup finder
  case some row => exact (h.remember (Rows.mem_of_lookup hfound).1).of_eq rfl
  case none =>
    rw [Context.learnLocked]
    split <;> exact h.of_eq rfl

theorem foldl {f : Context → Row → Context} {found : List Row} (h : c.Recalls rows)
    (hf : ∀ c row, row ∈ found → c.Recalls rows → (f c row).Recalls rows) :
    (found.foldl f c).Recalls rows := by
  induction found generalizing c
  case nil => exact h
  case cons row found ih =>
    exact ih (hf c row List.mem_cons_self h) fun c r hr => hf c r (List.mem_cons_of_mem _ hr)

theorem learnList (h : c.Recalls rows) :
    (c.learnList finder (rows.lookupList finder)).Recalls rows :=
  (h.foldl fun _ _ hrow h => h.remember (Rows.mem_lookupList_iff.mp hrow).1).of_eq rfl

theorem learnLockedList (h : c.Recalls rows) :
    (c.learnLockedList kind finder (rows.lookupList finder)).Recalls rows := by
  have hall : ((rows.lookupList finder).foldl (fun c row => (c.remember row).lock row.key kind)
      c).Recalls rows :=
    h.foldl fun _ _ hrow h => (h.remember (Rows.mem_lookupList_iff.mp hrow).1).of_eq rfl
  exact hall.of_eq rfl

end Recalls

def owners (before after : Option Row) : List Key :=
  (before.bind Row.owner?).toList ++ (after.bind Row.owner?).toList

-- There are locks for the row of `key` to be `before` and to be `after` now: on the row, or on what
-- it belonged to and belongs to.
def Covers (c : Context) (key : Key) (before after : Option Row) : Prop :=
  c.writeLocked key ∨ owners before after ≠ [] ∧ ∀ owner ∈ owners before after, c.writeLocked owner

instance {before after : Option Row} : Decidable (c.Covers key before after) :=
  inferInstanceAs (Decidable (_ ∨ _))

-- A row that was never read has gone from an owner that is not locked to one that is.
structure Overlooks (c : Context) (key : Key) (before after : Option Row) : Prop where
  unread : c.origins key = none
  unlocked : ¬c.writeLocked key
  left : ∃ owner, before.bind Row.owner? = some owner ∧ ¬c.writeLocked owner
  entered : ∃ owner, after.bind Row.owner? = some owner ∧ c.writeLocked owner

theorem covered?_eq_ok (hs : c.sealed) (h : c.covered? = .ok ()) :
    ∀ change ∈ c.changes, c.uncovered? change = none := by
  have hall : ∀ changes : List Change, changes.forM c.coverage = .ok () →
      ∀ change ∈ changes, c.uncovered? change = none := by
    intro changes h change hmem
    induction changes
    case nil => cases hmem
    case cons first changes ih =>
      replace h : (c.coverage first >>= fun _ => changes.forM c.coverage) = .ok () := h
      cases hfirst : c.coverage first
      case error =>
        rw [hfirst] at h
        cases h
      case ok =>
        rw [hfirst] at h
        obtain rfl | hmem := List.mem_cons.mp hmem
        · rw [coverage] at hfirst
          split at hfirst
          case h_1 => cases hfirst
          case h_2 hnone => exact hnone
        · exact ih h hmem
  rw [covered?, if_pos hs] at h
  exact hall c.changes h

theorem uncovered?_eq_none_iff : c.uncovered? change = none ↔ c.writeLocked change.key ∨
    c.guardsOf change ≠ [] ∧ ∀ guard ∈ c.guardsOf change, c.writeLocked guard := by
  rw [uncovered?]
  by_cases hkey : c.writeLocked change.key
  case pos => simp [hkey]
  case neg => cases hguards : c.guardsOf change <;> simp [hkey]

theorem mem_guardsOf_iff : owner ∈ c.guardsOf change ↔
    (c.origins change.key).join = some owner ∨ change.row?.bind Row.owner? = some owner := by
  have hguards : c.guardsOf change =
      if (c.origins change.key).join = change.row?.bind Row.owner? then
        (c.origins change.key).join.toList
      else (c.origins change.key).join.toList ++ (change.row?.bind Row.owner?).toList := by
    cases change <;> rfl
  rw [hguards]
  split
  case isTrue h => simp [h]
  case isFalse => simp

theorem mem_owners_iff {before after : Option Row} : owner ∈ owners before after ↔
    before.bind Row.owner? = some owner ∨ after.bind Row.owner? = some owner := by
  simp [owners]

-- Where the context recalls the owner, it asks for the locks on both owners. Where it does not, it
-- asks for one on the new owner only.
theorem covers_iff_of_covered {before : Option Row} (h : c.uncovered? change = none)
    (hrecalls : ∀ owner, c.origins change.key = some owner → before.bind Row.owner? = owner) :
    c.Covers change.key before change.row? ↔ ¬c.Overlooks change.key before change.row? := by
  constructor
  case mp =>
    intro hcovers hover
    obtain hkey | ⟨-, howners⟩ := hcovers
    · exact hover.unlocked hkey
    · obtain ⟨owner, howner, hunlocked⟩ := hover.left
      exact hunlocked (howners owner (mem_owners_iff.mpr (.inl howner)))
  case mpr =>
    intro hover
    obtain hkey | ⟨hne, hguards⟩ := uncovered?_eq_none_iff.mp h
    · exact .inl hkey
    · by_cases hkey : c.writeLocked change.key
      case pos => exact .inl hkey
      case neg =>
        obtain ⟨guard, hguard⟩ := List.exists_mem_of_ne_nil _ hne
        cases horigin : c.origins change.key
        case some first =>
          have hmem : ∀ owner, owner ∈ owners before change.row? ↔ owner ∈ c.guardsOf change := by
            intro owner
            rw [mem_owners_iff, mem_guardsOf_iff, hrecalls first horigin, horigin, Option.join_some]
          exact .inr ⟨List.ne_nil_of_mem ((hmem guard).mpr hguard),
            fun owner howner => hguards owner ((hmem owner).mp howner)⟩
        case none =>
          have hentered : change.row?.bind Row.owner? = some guard := by
            simpa [mem_guardsOf_iff, horigin] using hguard
          refine .inr ⟨List.ne_nil_of_mem (mem_owners_iff.mpr (.inr hentered)), fun owner howner => ?_⟩
          obtain hleft | hright := mem_owners_iff.mp howner
          · by_contra hunlocked
            exact hover ⟨horigin, hkey, ⟨owner, hleft, hunlocked⟩, guard, hentered,
              hguards guard hguard⟩
          · exact hguards owner (mem_guardsOf_iff.mpr (.inr hright))

end Context

namespace Action

variable {c c' : Context} {s s' : Store}

theorem ReadAlone.recalls {α : Type} {finder : Finder} {known : Context → Option α}
    {answer : Store → Except Fault α × Store} {learn : Context → α → Context} {r : Except Fault α}
    {rows : Rows} (h : ReadAlone finder known answer learn c s r c' s') (hc : c.Recalls rows)
    (hlearn : ∀ a s', answer s = (.ok a, s') → (learn c a).Recalls rows) : c'.Recalls rows := by
  cases h
  case found ha => exact hlearn _ _ ha
  all_goals exact hc

theorem commit_rows (h : Program.RunsAlone (commit c) s (.ok (), c') s') :
    c.covered? = .ok () ∧ s'.rows = s.rows.applyAll c.changes := by
  obtain ⟨_, -, hr, -⟩ | ⟨hcovered, -, x, hcommit, hr⟩ := commit_alone h
  · cases hr
  · cases x
    case error => cases hr
    case ok =>
      have hok := Store.commit_ok (congrArg Prod.fst hcommit)
      rw [hcommit] at hok
      refine ⟨hcovered, ?_⟩
      rw [(Prod.mk.inj hok).2, Store.record_rows, Store.foldl_apply_rows]
      rfl

end Action

namespace Confined

open Program

variable {β : Type} {m : StateT Context Program β} {c c' : Context} {s s₁ s₂ : Store} {tx : TxId}
  {key : Key} {b : β}

theorem recalls (h : Confined m) (hrun : (m c).RunsAlone s (b, c') s₁) (hc : c.Recalls s.rows) :
    c'.Recalls s.rows := by
  induction h generalizing c s c' s₁
  case bind hm _ ih ih' =>
    obtain ⟨⟨b₁, c₁⟩, s₂, hfirst, hrest⟩ := hrun.of_bind
    have hrows := ((hm.keeps c).same hfirst).1
    rw [← hrows]
    exact ih' b₁ hrest (hrows ▸ ih hfirst hc)
  case log =>
    obtain ⟨_, _, _, heq, -⟩ := hrun.of_bind
    cases heq
    exact hc
  case lockFind =>
    refine (Action.lockFind_alone hrun).recalls hc fun a s' ha => ?_
    obtain ⟨-, heq⟩ | ⟨_, _, -, heq⟩ := s.find_cases c.tx _ _
    all_goals cases heq.symm.trans ha
    exact hc.learnLocked
  case lockList =>
    refine (Action.lockList_alone hrun).recalls hc fun a s' ha => ?_
    obtain ⟨-, heq⟩ | ⟨_, _, -, heq⟩ := s.findList_cases c.tx _ _
    all_goals cases heq.symm.trans ha
    exact hc.learnLockedList
  case probe => exact (Action.probe_alone hrun).recalls hc fun _ _ _ => hc
  case find =>
    refine (Action.find_alone hrun).recalls hc fun a s' ha => ?_
    obtain ⟨-, heq⟩ | ⟨_, _, -, heq⟩ := s.find_cases c.tx _ _
    all_goals cases heq.symm.trans ha
    exact hc.learn
  case findList =>
    refine (Action.findList_alone hrun).recalls hc fun a s' ha => ?_
    obtain ⟨-, heq⟩ | ⟨_, _, -, heq⟩ := s.findList_cases c.tx _ _
    all_goals cases heq.symm.trans ha
    exact hc.learnList
  case upsert =>
    cases hrun.1
    exact hc.upsert
  case remove =>
    cases hrun.1
    exact hc.remove
  all_goals
    cases hrun.1
    exact hc

-- Of all rows that a commit changes, only those are changed without the locks that cover them which
-- were overlooked.
theorem covers_iff (h : Confined m) (hrun : (m (.new tx)).RunsAlone s (b, c) s₁) (hs : c.sealed)
    (hcommit : (Action.commit c).RunsAlone s₁ (.ok (), c') s₂)
    (hchanged : s₂.rows.find? key ≠ s.rows.find? key) :
    c.Covers key (s.rows.find? key) (s₂.rows.find? key) ↔
      ¬c.Overlooks key (s.rows.find? key) (s₂.rows.find? key) := by
  have ⟨hrows, _⟩ := (h.keeps (.new tx)).same hrun
  have hrecalls := h.recalls hrun (.new s.rows tx)
  have ⟨hcovered, hafter⟩ := Action.commit_rows hcommit
  rw [hrows] at hafter
  rw [hafter] at hchanged ⊢
  obtain ⟨change, hmem, rfl, hlast⟩ := Rows.exists_last_change hchanged
  rw [hlast]
  refine Context.covers_iff_of_covered (Context.covered?_eq_ok hs hcovered change hmem) ?_
  intro owner horigin
  obtain ⟨row, hrow, howner⟩ := hrecalls _ _ horigin
  rw [hrow]
  exact howner

-- The file is found, and both directories are locked.
def moveFile : Action Unit := do
  let _ ← Action.find (.node ⟨3⟩)
  let _ ← Action.lockFind .write (.node ⟨1⟩)
  let _ ← Action.lockFind .write (.node ⟨2⟩)
  Action.endLockPhase
  Action.upsert (.node ⟨⟨3⟩, ⟨2⟩, "f", .file, []⟩)

-- Only the new directory is locked, and the file is not looked at.
def takeFile : Action Unit := do
  let _ ← Action.lockFind .write (.node ⟨2⟩)
  Action.endLockPhase
  Action.upsert (.node ⟨⟨3⟩, ⟨2⟩, "f", .file, []⟩)

theorem moveFile_confined : Confined moveFile.run :=
  Stage.Straight.confined <| Stage.Straight.find.bind fun _ => Stage.Straight.lockFind.bind fun _ =>
    Stage.Straight.lockFind.bind fun _ => Stage.Straight.endLockPhase.bind fun _ => .upsert

theorem takeFile_confined : Confined takeFile.run :=
  Stage.Straight.confined <| Stage.Straight.lockFind.bind fun _ =>
    Stage.Straight.endLockPhase.bind fun _ => .upsert

-- The work and the commit after it, in a transaction that was just begun.
def alone (m : Action Unit) : Program ((Except Fault Unit × Context) × Except Fault Unit × Context) := do
  let (r, c) ← m (.new 1)
  let committed ← Action.commit c
  return ((r, c), committed)

def start : Store :=
  (Store.ofRows Overlap.twoDirectories).begin.2

theorem exists_commit {m : Action Unit} {q : Context → Rows → Bool} (hm : Confined m.run)
    (h : ((alone m).run { store := start }).any fun x =>
      x.1.1.1 = .ok () && x.1.2.1 = .ok () && q x.1.1.2 x.2.store.rows) :
    ∃ c c' s₁ s₂, RunsAlone (m (.new 1)) start (.ok (), c) s₁ ∧
      RunsAlone (Action.commit c) s₁ (.ok (), c') s₂ ∧ q c s₂.rows := by
  obtain ⟨⟨⟨⟨r, c⟩, r', c'⟩, w⟩, hrun, hgood⟩ := (Option.any_eq_true ..).mp h
  simp only [Bool.and_eq_true, decide_eq_true_eq] at hgood
  obtain ⟨⟨rfl, rfl⟩, hgood⟩ := hgood
  have hplain : (alone m).Only Request.Plain :=
    Only.bind ((hm.keeps _).mono (fun _ => Request.Reads.plain) fun _ _ => trivial) fun _ =>
      Only.bind (Action.commit_closes.mono fun _ => Request.Closes.plain) fun _ => trivial
  obtain ⟨⟨_, _⟩, s₁, hwork, hrest⟩ := (RunsAlone.of_run hplain hrun).of_bind
  obtain ⟨_, s₂, hcommit, heq, rfl⟩ := hrest.of_bind
  cases heq
  exact ⟨c, c', s₁, w.store, hwork, hcommit, hgood⟩

theorem covers_iff_moveFile : Confined moveFile.run ∧ ∃ c c' s₁ s₂,
    RunsAlone (moveFile (.new 1)) start (.ok (), c) s₁ ∧
    RunsAlone (Action.commit c) s₁ (.ok (), c') s₂ ∧ c.sealed ∧
    s₂.rows.find? (.node ⟨3⟩) ≠ start.rows.find? (.node ⟨3⟩) ∧
    c.Covers (.node ⟨3⟩) (start.rows.find? (.node ⟨3⟩)) (s₂.rows.find? (.node ⟨3⟩)) := by
  obtain ⟨c, c', s₁, s₂, hwork, hcommit, hgood⟩ := exists_commit moveFile_confined
    (q := fun c rows => c.sealed && rows.find? (.node ⟨3⟩) != start.rows.find? (.node ⟨3⟩) &&
      (c.origins (.node ⟨3⟩)).isSome) (by decide +kernel)
  simp only [Bool.and_eq_true, bne_iff_ne] at hgood
  obtain ⟨⟨hs, hchanged⟩, hread⟩ := hgood
  refine ⟨moveFile_confined, c, c', s₁, s₂, hwork, hcommit, hs, hchanged, ?_⟩
  refine (covers_iff moveFile_confined hwork hs hcommit hchanged).mpr fun hover => ?_
  rw [hover.unread] at hread
  cases hread

-- The commit is accepted, though the file was in a directory that is not locked.
theorem takeFile_overlooked : Confined takeFile.run ∧ ∃ c c' s₁ s₂,
    RunsAlone (takeFile (.new 1)) start (.ok (), c) s₁ ∧
    RunsAlone (Action.commit c) s₁ (.ok (), c') s₂ ∧ c.sealed ∧
    s₂.rows.find? (.node ⟨3⟩) ≠ start.rows.find? (.node ⟨3⟩) ∧
    ¬c.Covers (.node ⟨3⟩) (start.rows.find? (.node ⟨3⟩)) (s₂.rows.find? (.node ⟨3⟩)) := by
  obtain ⟨c, c', s₁, s₂, hwork, hcommit, hgood⟩ := exists_commit takeFile_confined
    (q := fun c rows => c.sealed && rows.find? (.node ⟨3⟩) != start.rows.find? (.node ⟨3⟩) &&
      !c.Covers (.node ⟨3⟩) (start.rows.find? (.node ⟨3⟩)) (rows.find? (.node ⟨3⟩)))
    (by decide +kernel)
  simp only [Bool.and_eq_true, bne_iff_ne, Bool.not_eq_true', decide_eq_false_iff_not] at hgood
  exact ⟨takeFile_confined, c, c', s₁, s₂, hwork, hcommit, hgood.1.1, hgood.1.2, hgood.2⟩

end Confined

end NamespaceService
