import Mathlib.Data.List.Induction
import Mathlib.Data.List.Nodup
import NamespaceService.Guards

namespace NamespaceService.StorageLocks

-- A guard that was given out, by the storage that was asked for and its lock.
structure Guard where
  storage : String
  lock : LockId
deriving DecidableEq

inductive Step
  | lock (storage : String)
  | forget (storage : String)
  | drop (guard : Guard)

-- The locks and the guards that are out, the latest first.
structure Guarded where
  locks : StorageLocks := {}
  live : List Guard := []

variable {locks : StorageLocks} {storage other : String} {lock : LockId}

theorem lookup_filter_ne {entries : List (String × LockId)} :
    (entries.filter (·.1 ≠ storage)).lookup other =
      if other = storage then none else entries.lookup other := by
  induction entries
  case nil => simp
  case cons entry rest ih =>
    obtain ⟨name, lock⟩ := entry
    by_cases hname : name = storage
    case pos =>
      rw [List.filter_cons_of_neg (by simpa using hname), ih]
      split
      case isTrue => rfl
      case isFalse hother => rw [List.lookup_cons, beq_false_of_ne (hname ▸ hother)]
    case neg =>
      rw [List.filter_cons_of_pos (by simpa using hname), List.lookup_cons, List.lookup_cons, ih]
      by_cases hother : other = name
      case pos => simp [hother, hname]
      case neg => simp [beq_false_of_ne hother]

theorem lockOf?_forget (locks : StorageLocks) (storage other : String) :
    (locks.forget storage).2.lockOf? other =
      if other = storage then none else locks.lockOf? other :=
  lookup_filter_ne

-- A storage keeps the lock that it has, or gets one that is new.
theorem register_cases (locks : StorageLocks) (storage : String) :
    (∃ lock, locks.lockOf? storage = some lock ∧ locks.register storage = (lock, locks)) ∨
      locks.lockOf? storage = none ∧ locks.register storage = (locks.created, { locks with
        registered := locks.registered ++ [(storage, locks.created)]
        created := locks.created + 1 }) := by
  rw [register]
  cases hlock : locks.lockOf? storage
  case none => exact .inr ⟨rfl, rfl⟩
  case some lock => exact .inl ⟨lock, rfl, rfl⟩

theorem lockOf?_register (locks : StorageLocks) (storage other : String) :
    (locks.register storage).2.lockOf? other =
      if other = storage then some (locks.register storage).1 else locks.lockOf? other := by
  obtain ⟨lock, hlock, hregister⟩ | ⟨hnone, hregister⟩ := locks.register_cases storage
  case inl =>
    rw [hregister]
    split
    case isTrue hother => rw [hother, hlock]
    case isFalse => rfl
  case inr =>
    rw [lockOf?] at hnone
    rw [hregister, lockOf?, List.lookup_append]
    split
    case isTrue hother => simp [hother, hnone]
    case isFalse hother => simp [List.lookup_cons, beq_false_of_ne hother, lockOf?]

namespace Guarded

variable {s : Guarded} {guard g h : Guard} {steps : List Step}

def take (s : Guarded) : Step → Guarded
  | .lock storage =>
    match s.locks.acquire storage with
    | (some lock, locks) => { locks, live := ⟨storage, lock⟩ :: s.live }
    | (none, locks) => { s with locks }
  | .forget storage => { s with locks := (s.locks.forget storage).2 }
  | .drop guard =>
    if guard ∈ s.live then
      { locks := s.locks.release guard.lock, live := s.live.erase guard }
    else s

-- What has become of new locks.
def after (steps : List Step) : Guarded :=
  steps.foldl take {}

def liveOf (s : Guarded) (storage : String) : List Guard :=
  s.live.filter (·.storage = storage)

theorem mem_liveOf : guard ∈ s.liveOf storage ↔ guard ∈ s.live ∧ guard.storage = storage := by
  simp [liveOf]

theorem after_snoc (steps : List Step) (step : Step) :
    after (steps ++ [step]) = (after steps).take step := by
  rw [after, List.foldl_append]
  rfl

-- A lock is refused if a guard of it is out. The storage is registered in any case.
theorem take_lock (s : Guarded) (storage : String) :
    (s.locks.register storage).1 ∈ (s.locks.register storage).2.held ∧
        s.take (.lock storage) = { s with locks := (s.locks.register storage).2 } ∨
      (s.locks.register storage).1 ∉ (s.locks.register storage).2.held ∧
        s.take (.lock storage) = {
          locks := { (s.locks.register storage).2 with
            held := (s.locks.register storage).1 :: (s.locks.register storage).2.held }
          live := ⟨storage, (s.locks.register storage).1⟩ :: s.live } := by
  rw [take, acquire]
  dsimp only
  by_cases hheld : (s.locks.register storage).1 ∈ (s.locks.register storage).2.held
  · exact .inl ⟨hheld, by rw [if_pos hheld]⟩
  · exact .inr ⟨hheld, by rw [if_neg hheld]⟩

structure Sound (s : Guarded) : Prop where
  held : s.locks.held = s.live.map Guard.lock
  distinct : (s.live.map Guard.lock).Nodup
  -- Locks that are new are unlike those that were made before.
  made {guard : Guard} : guard ∈ s.live → guard.lock < s.locks.created
  known {storage : String} {lock : LockId} :
    s.locks.lockOf? storage = some lock → lock < s.locks.created
  unshared {storage other : String} {lock : LockId} :
    s.locks.lockOf? storage = some lock → s.locks.lockOf? other = some lock → storage = other
  -- A lock that is still registered is that of the storage that was asked for.
  owned {guard : Guard} {storage : String} :
    guard ∈ s.live → s.locks.lockOf? storage = some guard.lock → storage = guard.storage

theorem map_lock_erase {guards : List Guard} (h : (guards.map Guard.lock).Nodup)
    (hguard : guard ∈ guards) :
    (guards.erase guard).map Guard.lock = (guards.map Guard.lock).erase guard.lock := by
  induction guards
  case nil => cases hguard
  case cons g rest ih =>
    rw [List.map_cons, List.nodup_cons] at h
    by_cases heq : g = guard
    case pos => simp [heq]
    case neg =>
      have hrest : guard ∈ rest := (List.mem_cons.mp hguard).resolve_left (Ne.symm heq)
      have hlock : g.lock ≠ guard.lock := fun hlock => h.1 (hlock ▸ List.mem_map_of_mem hrest)
      rw [List.erase_cons_tail (by simpa using heq), List.map_cons, List.map_cons,
        List.erase_cons_tail (by simpa using hlock), ih h.2 hrest]

namespace Sound

theorem new : Sound {} where
  held := rfl
  distinct := .nil
  made h := nomatch h
  known h := nomatch h
  unshared h := nomatch h
  owned h := nomatch h

theorem register (sound : s.Sound) (storage : String) :
    Sound { s with locks := (s.locks.register storage).2 } := by
  obtain ⟨lock, -, hregister⟩ | ⟨hnone, hregister⟩ := s.locks.register_cases storage
  case inl => rwa [hregister]
  case inr =>
    have hlockOf := s.locks.lockOf?_register storage
    rw [hregister] at hlockOf ⊢
    -- The new lock is the only one that has changed, and it is nobody's.
    have hnew {other lock} (h : some lock = if other = storage then some s.locks.created
        else s.locks.lockOf? other) : other = storage ∧ lock = s.locks.created ∨
          s.locks.lockOf? other = some lock ∧ lock < s.locks.created := by
      split at h
      case isTrue hother => exact .inl ⟨hother, Option.some.inj h⟩
      case isFalse => exact .inr ⟨h.symm, sound.known h.symm⟩
    exact {
      held := sound.held
      distinct := sound.distinct
      made := fun hguard => Nat.lt_succ_of_lt (sound.made hguard)
      known := fun h => by
        obtain ⟨-, rfl⟩ | ⟨-, hlt⟩ := hnew (h.symm.trans (hlockOf _))
        · exact Nat.lt_succ_self _
        · exact Nat.lt_succ_of_lt hlt
      unshared := fun h h' => by
        obtain ⟨rfl, rfl⟩ | ⟨hold, hlt⟩ := hnew (h.symm.trans (hlockOf _))
        all_goals obtain ⟨rfl, heq⟩ | ⟨hold', hlt'⟩ := hnew (h'.symm.trans (hlockOf _))
        · rfl
        · exact absurd hlt' (Nat.lt_irrefl _)
        · exact absurd (heq ▸ hlt) (Nat.lt_irrefl _)
        · exact sound.unshared hold hold'
      owned := fun hguard h => by
        obtain ⟨-, heq⟩ | ⟨hold, -⟩ := hnew (h.symm.trans (hlockOf _))
        · exact absurd (heq ▸ sound.made hguard) (Nat.lt_irrefl _)
        · exact sound.owned hguard hold }

theorem give (sound : s.Sound) (hlock : s.locks.lockOf? storage = some lock)
    (hfree : lock ∉ s.locks.held) : Sound {
      locks := { s.locks with held := lock :: s.locks.held }
      live := ⟨storage, lock⟩ :: s.live } where
  held := by rw [List.map_cons, sound.held]
  distinct := List.nodup_cons.mpr ⟨sound.held ▸ hfree, sound.distinct⟩
  made hguard := by
    obtain rfl | hguard := List.mem_cons.mp hguard
    · exact sound.known hlock
    · exact sound.made hguard
  known := sound.known
  unshared := sound.unshared
  owned hguard hother := by
    obtain rfl | hguard := List.mem_cons.mp hguard
    · exact sound.unshared hother hlock
    · exact sound.owned hguard hother

theorem forget (sound : s.Sound) (storage : String) :
    Sound { s with locks := (s.locks.forget storage).2 } := by
  have hlockOf {other lock} (h : (s.locks.forget storage).2.lockOf? other = some lock) :
      s.locks.lockOf? other = some lock := by
    rw [lockOf?_forget] at h
    split at h
    case isTrue => cases h
    case isFalse => exact h
  exact {
    held := sound.held
    distinct := sound.distinct
    made := sound.made
    known := fun h => sound.known (hlockOf h)
    unshared := fun h h' => sound.unshared (hlockOf h) (hlockOf h')
    owned := fun hguard h => sound.owned hguard (hlockOf h) }

theorem release (sound : s.Sound) (hguard : guard ∈ s.live) :
    Sound { locks := s.locks.release guard.lock, live := s.live.erase guard } where
  held := (congrArg (·.erase guard.lock) sound.held).trans (map_lock_erase sound.distinct hguard).symm
  distinct := sound.distinct.sublist (List.erase_sublist.map _)
  made h := sound.made (List.mem_of_mem_erase h)
  known := sound.known
  unshared := sound.unshared
  owned h := sound.owned (List.mem_of_mem_erase h)

theorem take (sound : s.Sound) (step : Step) : (s.take step).Sound := by
  cases step
  case lock storage =>
    have hregister := sound.register storage
    obtain ⟨-, htake⟩ | ⟨hfree, htake⟩ := s.take_lock storage
    · exact htake ▸ hregister
    · have hlock := s.locks.lockOf?_register storage storage
      rw [if_pos rfl] at hlock
      exact htake ▸ hregister.give hlock hfree
  case forget storage => exact sound.forget storage
  case drop guard =>
    rw [Guarded.take]
    split
    case isTrue hguard => exact sound.release hguard
    case isFalse => exact sound

theorem after (steps : List Step) : (after steps).Sound := by
  induction steps using List.reverseRecOn
  case nil => exact new
  case append_singleton steps step ih => exact after_snoc steps step ▸ ih.take step

-- A lock has one guard at most, but a storage that is forgotten and registered again has a new
-- lock, whoever still holds the old one.
theorem exclusive_iff (sound : s.Sound) : (∀ storage, (s.liveOf storage).length ≤ 1) ↔
    ∀ g ∈ s.live, ∀ h ∈ s.live, g.storage = h.storage → g = h := by
  constructor
  case mp =>
    intro hlength g hg h hh hstorage
    have hg := mem_liveOf.mpr ⟨hg, hstorage⟩
    have hh := mem_liveOf.mpr ⟨hh, rfl⟩
    have hlength := hlength h.storage
    generalize s.liveOf h.storage = guards at *
    match guards with
    | [] => cases hg
    | [_] => rw [List.mem_singleton.mp hg, List.mem_singleton.mp hh]
    | _ :: _ :: _ => simp at hlength
  case mpr =>
    intro hsame storage
    have hnodup : (s.liveOf storage).Nodup := sound.distinct.of_map.filter _
    cases hguards : s.liveOf storage
    case nil => exact Nat.zero_le _
    case cons g rest =>
      cases rest
      case nil => exact Nat.le_refl _
      case cons h rest =>
        obtain ⟨hg, hgs⟩ := mem_liveOf.mp (hguards ▸ List.mem_cons_self : g ∈ s.liveOf storage)
        obtain ⟨hh, hhs⟩ := mem_liveOf.mp
          (hguards ▸ List.mem_cons_of_mem _ List.mem_cons_self : h ∈ s.liveOf storage)
        have heq := hsame g hg h hh (hgs.trans hhs.symm)
        simp [hguards, heq] at hnodup

end Sound

def Current (s : Guarded) (guard : Guard) : Prop :=
  s.locks.lockOf? guard.storage = some guard.lock

-- The lock of a storage is granted if all guards of the storage have lost their lock.
theorem take_lock_cases (sound : s.Sound) (storage : String) :
    (∃ guard ∈ s.live, guard.storage = storage ∧ s.Current guard ∧
        (s.take (.lock storage)).live = s.live) ∨
      (∀ guard ∈ s.live, guard.storage = storage → ¬s.Current guard) ∧
        ∃ lock, (s.take (.lock storage)).live = ⟨storage, lock⟩ :: s.live ∧
          (s.take (.lock storage)).Current ⟨storage, lock⟩ := by
  have hregister := sound.register storage
  have hlock := s.locks.lockOf?_register storage storage
  rw [if_pos rfl] at hlock
  obtain ⟨hheld, htake⟩ | ⟨hfree, htake⟩ := s.take_lock storage
  case inl =>
    rw [hregister.held] at hheld
    obtain ⟨guard, hguard, heq⟩ := List.mem_map.mp hheld
    have hstorage := hregister.owned hguard (hlock.trans (congrArg some heq.symm))
    -- A lock that was made just now has no guard, so the storage had its lock before.
    obtain ⟨lock, hold, hsame⟩ | ⟨-, hnew⟩ := s.locks.register_cases storage
    case inl =>
      rw [hsame] at heq
      exact .inl ⟨guard, hguard, hstorage.symm, by rw [Current, ← hstorage, hold, heq], by rw [htake]⟩
    case inr =>
      rw [hnew] at heq
      exact absurd (heq ▸ sound.made hguard) (Nat.lt_irrefl _)
  case inr =>
    refine .inr ⟨fun guard hguard hstorage hcurrent => hfree ?_, _, by rw [htake], ?_⟩
    · obtain ⟨lock, hold, hsame⟩ | ⟨hnone, -⟩ := s.locks.register_cases storage
      · rw [Current, hstorage, hold] at hcurrent
        rw [hregister.held, hsame, Option.some.inj hcurrent]
        exact List.mem_map_of_mem hguard
      · rw [Current, hstorage, hnone] at hcurrent
        cases hcurrent
    · rw [htake]
      exact hlock

-- What was given out before is still there or was dropped.
theorem mem_live_take {step : Step} (h : guard ∈ (s.take step).live) : guard ∈ s.live ∨
    ∃ storage, step = .lock storage ∧ guard ∉ s.live := by
  by_cases hold : guard ∈ s.live
  case pos => exact .inl hold
  case neg =>
    cases step
    case lock storage => exact .inr ⟨storage, rfl, hold⟩
    case forget storage => exact absurd h hold
    case drop dropped =>
      rw [take] at h
      split at h
      · exact absurd (List.mem_of_mem_erase h) hold
      · exact absurd h hold

theorem lockOf?_drop (s : Guarded) (dropped : Guard) (storage : String) :
    (s.take (.drop dropped)).locks.lockOf? storage = s.locks.lockOf? storage := by
  rw [take]
  split <;> rfl

theorem lockOf?_take_lock (s : Guarded) (storage other : String) :
    (s.take (.lock storage)).locks.lockOf? other =
      (s.locks.register storage).2.lockOf? other := by
  obtain ⟨-, htake⟩ | ⟨-, htake⟩ := s.take_lock storage
  all_goals exact congrArg (·.locks.lockOf? other) htake

-- Only forgetting a storage takes its lock from it.
theorem Current.take (current : s.Current guard) {step : Step} (h : step ≠ .forget guard.storage) :
    (s.take step).Current guard := by
  cases step
  case lock storage =>
    rw [Current, lockOf?_take_lock, lockOf?_register]
    split
    case isTrue hstorage =>
      obtain ⟨lock, hold, hsame⟩ | ⟨hnone, -⟩ := s.locks.register_cases storage
      · rw [hsame, ← hold, ← hstorage]
        exact current
      · rw [Current, hstorage, hnone] at current
        cases current
    case isFalse => exact current
  case forget storage =>
    have hother : guard.storage ≠ storage := fun hsame => h (hsame ▸ rfl)
    rw [Current, Guarded.take, lockOf?_forget, if_neg hother]
    exact current
  case drop dropped => exact (s.lockOf?_drop dropped guard.storage).trans current

-- A guard that has lost its lock does not get it back.
theorem stale_take (hmade : guard.lock < s.locks.created) (stale : ¬s.Current guard)
    (step : Step) : ¬(s.take step).Current guard := by
  cases step
  case lock storage =>
    rw [Current, lockOf?_take_lock, lockOf?_register]
    split
    case isTrue hstorage =>
      obtain ⟨lock, hold, hsame⟩ | ⟨-, hnew⟩ := s.locks.register_cases storage
      · rw [hsame, ← hold, ← hstorage]
        exact stale
      · rw [hnew]
        exact fun heq => absurd (Option.some.inj heq ▸ hmade) (Nat.lt_irrefl _)
    case isFalse => exact stale
  case forget storage =>
    rw [Current, Guarded.take, lockOf?_forget]
    split
    case isTrue => exact fun h => nomatch h
    case isFalse => exact stale
  case drop dropped => exact fun h => stale ((s.lockOf?_drop dropped guard.storage).symm.trans h)

theorem created_le_take (s : Guarded) (step : Step) :
    s.locks.created ≤ (s.take step).locks.created := by
  cases step
  case lock storage =>
    have hregister : s.locks.created ≤ (s.locks.register storage).2.created := by
      obtain ⟨_, -, hsame⟩ | ⟨-, hnew⟩ := s.locks.register_cases storage
      · exact hsame ▸ Nat.le_refl _
      · exact hnew ▸ Nat.le_succ _
    obtain ⟨-, htake⟩ | ⟨-, htake⟩ := s.take_lock storage
    all_goals
      rw [htake]
      exact hregister
  case forget storage => exact Nat.le_refl _
  case drop dropped =>
    rw [take]
    split <;> exact Nat.le_refl _

-- The storage was forgotten while the guard was out.
def Forgotten (guard : Guard) (steps : List Step) : Prop :=
  ∃ before between, steps = before ++ .forget guard.storage :: between ∧ guard ∈ (after before).live

theorem Forgotten.snoc (h : Forgotten guard steps) (step : Step) :
    Forgotten guard (steps ++ [step]) := by
  obtain ⟨before, between, rfl, hguard⟩ := h
  exact ⟨before, between ++ [step], by simp, hguard⟩

theorem Forgotten.stale (h : Forgotten guard steps) :
    ¬(after steps).Current guard ∧ guard.lock < (after steps).locks.created := by
  obtain ⟨before, between, rfl, hguard⟩ := h
  induction between using List.reverseRecOn
  case nil =>
    rw [after_snoc]
    refine ⟨?_, (Sound.after before).made hguard⟩
    rw [Current, take, lockOf?_forget, if_pos rfl]
    exact fun h => nomatch h
  case append_singleton between step ih =>
    rw [← List.cons_append, ← List.append_assoc, after_snoc]
    exact ⟨stale_take ih.2 ih.1 step, Nat.lt_of_lt_of_le ih.2 (created_le_take _ step)⟩

-- A guard that is out has lost its lock exactly if its storage was forgotten meanwhile.
theorem current_iff (h : guard ∈ (after steps).live) :
    (after steps).Current guard ↔ ¬Forgotten guard steps := by
  refine ⟨fun current forgotten => forgotten.stale.1 current, fun unforgotten => ?_⟩
  induction steps using List.reverseRecOn
  case nil => cases h
  case append_singleton steps step ih =>
    rw [after_snoc] at h ⊢
    obtain hold | ⟨storage, rfl, hnew⟩ := mem_live_take h
    case inl =>
      refine (ih hold fun forgotten => unforgotten (forgotten.snoc step)).take fun hstep => ?_
      exact unforgotten ⟨steps, [], by rw [hstep], hold⟩
    case inr =>
      obtain ⟨-, -, -, -, hlive⟩ | ⟨-, lock, hlive, current⟩ :=
        take_lock_cases (.after steps) storage
      · exact absurd (hlive ▸ h) hnew
      · rw [hlive] at h
        exact (List.mem_cons.mp h).resolve_right hnew ▸ current

-- Two guards of one storage are out only if it was locked again after it was forgotten, while a
-- guard that was out then was kept.
theorem relocked_of_two (hg : g ∈ (after steps).live) (hh : h ∈ (after steps).live)
    (hstorage : g.storage = h.storage) (hne : g ≠ h) : ∃ before later guard,
      steps = before ++ .lock guard.storage :: later ∧ Forgotten guard before ∧
        guard ∈ (after before).live := by
  induction steps using List.reverseRecOn
  case nil => cases hg
  case append_singleton steps step ih =>
    rw [after_snoc] at hg hh
    -- The one that was given out just now found the other without its lock.
    have hlatest {new old : Guard} (hnew : new ∈ ((after steps).take step).live)
        (hfresh : new ∉ (after steps).live) (hold : old ∈ ((after steps).take step).live)
        (hsame : new.storage = old.storage) (hne : new ≠ old) : ∃ before later guard,
          steps ++ [step] = before ++ .lock guard.storage :: later ∧ Forgotten guard before ∧
            guard ∈ (after before).live := by
      obtain hnot | ⟨storage, rfl, -⟩ := mem_live_take hnew
      · exact absurd hnot hfresh
      · obtain ⟨-, -, -, -, hlive⟩ | ⟨hstale, lock, hlive, -⟩ :=
          take_lock_cases (.after steps) storage
        · exact absurd (hlive ▸ hnew) hfresh
        · rw [hlive] at hnew hold
          have heq := (List.mem_cons.mp hnew).resolve_right hfresh
          have hold := (List.mem_cons.mp hold).resolve_left (heq ▸ hne.symm)
          have hstorage : old.storage = storage := by rw [← hsame, heq]
          have hforgotten := not_not.mp ((current_iff hold).not.mp (hstale old hold hstorage))
          exact ⟨steps, [], old, by rw [hstorage], hforgotten, hold⟩
    by_cases hgold : g ∈ (after steps).live
    case neg => exact hlatest hg hgold hh hstorage hne
    case pos =>
      by_cases hhold : h ∈ (after steps).live
      case neg => exact hlatest hh hhold hg hstorage.symm hne.symm
      case pos =>
        obtain ⟨before, later, guard, rfl, hguard⟩ := ih hgold hhold
        exact ⟨before, later ++ [step], guard, by simp, hguard⟩

theorem two_of_relocked (hforgotten : Forgotten guard steps) (hguard : guard ∈ (after steps).live) :
    ∃ run, run <+: steps ++ [.lock guard.storage] ∧
      ∃ g ∈ (after run).live, g.storage = guard.storage ∧ guard ∈ (after run).live ∧ g ≠ guard := by
  obtain ⟨g, hg, hstorage, current, -⟩ | ⟨-, lock, hlive, current⟩ :=
    take_lock_cases (.after steps) guard.storage
  · exact ⟨steps, List.prefix_append _ _, g, hg, hstorage, hguard,
      fun heq => hforgotten.stale.1 (heq ▸ current)⟩
  · rw [← after_snoc] at hlive current
    refine ⟨_, List.prefix_refl _, ⟨guard.storage, lock⟩, ?_, rfl, ?_, fun heq => ?_⟩
    · exact hlive ▸ List.mem_cons_self
    · exact hlive ▸ List.mem_cons_of_mem _ hguard
    · exact (hforgotten.snoc _).stale.1 (heq ▸ current)

-- Each storage has one guard at most at every moment of a run if and only if, whenever a storage is
-- locked that was forgotten before, the guards that were out when it was forgotten have been dropped.
theorem exclusive_run_iff (steps : List Step) :
    (∀ run, run <+: steps → ∀ storage, ((after run).liveOf storage).length ≤ 1) ↔
      ∀ before between later storage, steps =
          before ++ .forget storage :: between ++ .lock storage :: later →
        ∀ guard ∈ (after before).liveOf storage,
          guard ∉ (after (before ++ .forget storage :: between)).live := by
  simp only [(Sound.after _).exclusive_iff, mem_liveOf]
  constructor
  case mp =>
    rintro hexclusive before between later _ rfl guard ⟨hguard, rfl⟩ hkept
    obtain ⟨run, hrun, g, hg, hstorage, hmem, hne⟩ :=
      two_of_relocked ⟨before, between, rfl, hguard⟩ hkept
    refine hne (hexclusive run (hrun.trans ⟨later, ?_⟩) g hg guard hmem hstorage)
    rw [List.append_assoc, List.singleton_append]
  case mpr =>
    intro hdropped run hrun g hg h hh hstorage
    by_contra hne
    obtain ⟨before', later, guard, rfl, ⟨before, between, rfl, hguard⟩, hkept⟩ :=
      relocked_of_two hg hh hstorage hne
    obtain ⟨rest, rfl⟩ := hrun
    exact hdropped before between (later ++ rest) guard.storage (by simp) guard ⟨hguard, rfl⟩ hkept

-- A storage is locked, forgotten and locked again.
theorem forgotten_twoGuards :
    ¬∀ steps storage, ((after steps).liveOf storage).length ≤ 1 := by
  intro h
  exact absurd (h [.lock "ds-1", .forget "ds-1", .lock "ds-1"] "ds-1") (by decide)

end Guarded

end NamespaceService.StorageLocks
