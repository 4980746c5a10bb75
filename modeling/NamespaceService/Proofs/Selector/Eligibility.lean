import Mathlib.Data.List.Permutation
import NamespaceService.Proofs.Selector.Steps

namespace NamespaceService.Selector

variable {s : Selector} {h : Handle} {steps : List Step}

theorem isEligible_iff {index : Nat} : s.isEligible index ↔
    ∃ h, s.servers[index]? = some h ∧ s.isBlacklisted h = false := by
  rw [isEligible]
  cases s.servers[index]? <;> simp

theorem eligible_of_index {index : Nat} (heligible : s.isEligible index)
    (hindex : s.servers[index]? = some h) : h ∈ s.servers ∧ s.isBlacklisted h = false := by
  obtain ⟨k, hk, hfree⟩ := isEligible_iff.mp heligible
  cases hk.symm.trans hindex
  exact ⟨List.mem_of_getElem? hindex, hfree⟩

theorem eligible_of_pickRandom {tries : Nat} (hpick : (pickRandom tries s).1 = some h) :
    h ∈ s.servers ∧ s.isBlacklisted h = false := by
  induction tries generalizing s
  case zero => cases hpick
  case succ tries ih =>
    rw [pickRandom] at hpick
    dsimp only at hpick
    split at hpick
    case isTrue heligible => exact eligible_of_index heligible hpick
    case isFalse => exact ih (s := { s with drawn := s.drawn + 1 }) hpick

theorem eligible_of_pick (hpick : s.pick.1 = some h) :
    h ∈ s.servers ∧ s.isBlacklisted h = false := by
  rw [pick] at hpick
  split at hpick
  case h_1 =>
    rw [pickRoundRobin] at hpick
    split at hpick
    case h_1 hfind => exact eligible_of_index (List.find?_some hfind) hpick
    case h_2 => cases hpick
  case h_2 => exact eligible_of_pickRandom hpick

theorem eligible_of_next (hnext : s.next.1 = .ok h) :
    h ∈ s.servers ∧ s.isBlacklisted h = false := by
  rw [next] at hnext
  split at hnext
  case isTrue => cases hnext
  case isFalse =>
    split at hnext
    case h_1 hpick =>
      cases hnext
      exact eligible_of_pick (congrArg Prod.fst hpick)
    case h_2 => cases hnext

-- Until a refresh succeeds the list stays, if it is not given up, and so does what is blacklisted.
theorem through_since (hsince : s.along renewals steps = []) :
    (s.through steps).servers = [] ∨ (s.through steps).servers = s.servers ∧
      (s.blacklist ++ s.along reported steps).map Handle.address ⊆
        (s.through steps).blacklist.map Handle.address := by
  induction steps generalizing s
  case nil => exact .inr ⟨rfl, by simp [along, through]⟩
  case cons step rest ih =>
    obtain ⟨hstep, hrest⟩ := List.append_eq_nil_iff.mp hsince
    change ((s.take step).through rest).servers = [] ∨ _
    obtain hgone | ⟨hkept, hlisted⟩ := ih hrest
    · exact .inl hgone
    · obtain hgone | ⟨hkept', hlisted'⟩ := (s.take_moved step).servers hstep
      · exact .inl (hkept.trans hgone)
      · refine .inr ⟨hkept.trans hkept', ?_⟩
        rw [List.map_append] at hlisted
        rw [along, ← List.append_assoc, List.map_append]
        obtain ⟨hbefore, hafter⟩ := List.append_subset.mp hlisted
        exact List.append_subset.mpr ⟨List.Subset.trans hlisted' hbefore, hafter⟩

theorem through_wakes (s : Selector) (steps : List Step) : (s.through steps).wakes =
    s.wakes + (s.along reported steps).length + (s.along failures steps).length := by
  induction steps generalizing s
  case nil => rfl
  case cons step rest ih =>
    change ((s.take step).through rest).wakes = _
    rw [ih, (s.take_moved step).wakes, along, along, List.length_append, List.length_append]
    omega

theorem through_distinct (hnodup : (s.blacklist.map Handle.address).Nodup) (steps : List Step) :
    ((s.through steps).blacklist.map Handle.address).Nodup := by
  induction steps generalizing s
  case nil => exact hnodup
  case cons step rest ih => exact ih ((s.take_moved step).distinct hnodup)

-- The refresh with which the selector starts or, if there are steps, the last of them succeeds.
def Renewed (unstarted s : Selector) (steps : List Step) : Prop :=
  steps = [] ∧ unstarted.refresh.1 = .ok () ∨
    ∃ before, steps = before ++ [.refresh] ∧ (s.through before).refresh.1 = .ok ()

-- A run that has refreshes that succeed has a last one of them.
theorem last_renewal (s : Selector) (steps : List Step) : s.along renewals steps = [] ∨
    ∃ before since, steps = before ++ [.refresh] ++ since ∧ (s.through before).refresh.1 = .ok () ∧
      (s.through (before ++ [.refresh])).along renewals since = [] := by
  induction steps generalizing s
  case nil => exact .inl rfl
  case cons step rest ih =>
    obtain hrest | ⟨before, since, rfl, hok, hsince⟩ := ih (s.take step)
    case inr => exact .inr ⟨step :: before, since, rfl, hok, hsince⟩
    case inl =>
      rw [along, hrest, List.append_nil]
      cases step
      case refresh =>
        cases hok : s.refresh.1
        case ok => exact .inr ⟨[], rest, rfl, hok, hrest⟩
        case error => exact .inl (by rw [renewals, hok])
      all_goals exact .inl rfl

-- A selector has no servers until a refresh succeeds.
theorem start_standing {config : SelectorConfig} {cluster : Cluster} {draws : Draws}
    (h : start config cluster draws = .ok s) :
    ((refresh { config, cluster, draws }).1 = .ok () ∨ s.servers = []) ∧ s.blacklist = [] ∧
      s.wakes = 0 := by
  have hstanding := refresh_standing { config, cluster, draws }
  rw [start] at h
  split at h
  case h_1 => cases h
  case h_2 =>
    cases h
    split
    all_goals
      rename_i hrefresh
      rw [hrefresh] at hstanding ⊢
      simp_all [standing, note]

-- Whom `next` gives is in the list that the last successful refresh put up, and its address was not
-- blacklisted since; the blacklist names no address twice; and a refresh was asked for once by each
-- call that blacklists a server and by each call that fails.
theorem run_accounted {config : SelectorConfig} {cluster : Cluster} {draws : Draws}
    (h : start config cluster draws = .ok s) (steps : List Step) :
    (∀ k, (s.through steps).next.1 = .ok k → ∃ before since, steps = before ++ since ∧
        Renewed { config, cluster, draws } s before ∧
        (s.through before).along renewals since = [] ∧ k ∈ (s.through before).servers ∧
        k.address ∉ ((s.through before).along reported since).map Handle.address) ∧
      ((s.through steps).blacklist.map Handle.address).Nodup ∧
      (s.through steps).wakes =
        (s.along reported steps).length + (s.along failures steps).length := by
  obtain ⟨hstart, hblacklist, hwakes⟩ := start_standing h
  refine ⟨fun k hnext => ?_, ?_, ?_⟩
  · obtain ⟨hlisted, hfree⟩ := eligible_of_next hnext
    -- What is in the list now has been there since the last refresh that succeeded.
    have hsince {t : Selector} {since : List Step} (heq : t.through since = s.through steps)
        (hnone : t.along renewals since = []) : k ∈ t.servers ∧
          k.address ∉ (t.along reported since).map Handle.address := by
      obtain hgone | ⟨hkept, hreported⟩ := through_since hnone
      · rw [heq] at hgone
        simp [hgone] at hlisted
      · rw [heq] at hkept hreported
        refine ⟨hkept ▸ hlisted, fun hmem => ?_⟩
        have hblacklisted := isBlacklisted_iff.mpr
          (hreported (List.map_subset _ (List.subset_append_right _ _) hmem))
        simp [hfree] at hblacklisted
    obtain hnone | ⟨before, since, rfl, hok, hnone⟩ := s.last_renewal steps
    · obtain ⟨hmem, hunreported⟩ := hsince rfl hnone
      obtain hok | hservers := hstart
      · exact ⟨[], steps, rfl, .inl ⟨rfl, hok⟩, hnone, hmem, hunreported⟩
      · simp [hservers] at hmem
    · exact ⟨before ++ [.refresh], since, rfl, .inr ⟨before, rfl, hok⟩, hnone,
        hsince (s.through_append ..).symm hnone⟩
  · exact through_distinct (hblacklist ▸ .nil) steps
  · rw [through_wakes, hwakes, Nat.zero_add]

-- Each of two servers is reported once or twice, with a refresh in between.
def reportedInTurn : List Step :=
  [.next, .blacklist ⟨hosted 1 "nn1" 8021, 0⟩, .next, .refresh,
    .blacklist ⟨hosted 2 "nn2" 8022, 1⟩, .blacklist ⟨hosted 2 "nn2" 8022, 1⟩, .next]

theorem reportedInTurn_accounted :
    let s := startedWith [hosted 1 "nn1" 8021, hosted 2 "nn2" 8022]
    let h : Handle := ⟨hosted 1 "nn1" 8021, 0⟩
    (s.through reportedInTurn).next.1 = .ok h ∧ (s.through reportedInTurn).wakes = 3 ∧
      ∃ before since, reportedInTurn = before ++ since ∧ h ∈ (s.through before).servers ∧
        h.address ∉ ((s.through before).along reported since).map Handle.address := by
  obtain ⟨hpicked, -, hwakes⟩ := run_accounted
    (start_startedWith [hosted 1 "nn1" 8021, hosted 2 "nn2" 8022]) reportedInTurn
  obtain ⟨before, since, hsplit, -, -, hlisted, hunreported⟩ :=
    hpicked ⟨hosted 1 "nn1" 8021, 0⟩ (by cbv)
  refine ⟨by cbv, hwakes.trans ?_, before, since, hsplit, hlisted, hunreported⟩
  cbv

end NamespaceService.Selector
