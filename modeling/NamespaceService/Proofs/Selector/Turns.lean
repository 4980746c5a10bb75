import Mathlib.Data.List.Permutation
import Mathlib.Data.List.Rotate
import NamespaceService.Proofs.Selector.Steps

namespace NamespaceService.Selector

variable {s t : Selector} {h : Handle} {step : Step} {steps : List Step}

-- Servers that may be picked.
def eligible (s : Selector) : List Handle :=
  s.servers.filter (!s.isBlacklisted ·)

-- The same in the order of their turns: from behind the cursor to the end of the list, and then from
-- its start.
def upcoming (s : Selector) : List Handle :=
  (s.servers.rotate (s.cursor + 1)).filter (!s.isBlacklisted ·)

theorem upcoming_isRotated (s : Selector) : s.upcoming.IsRotated s.eligible := by
  rw [upcoming, eligible, List.rotate_eq_drop_append_take_mod, List.filter_append]
  refine List.isRotated_append.trans ?_
  rw [← List.filter_append, List.take_append_drop]

theorem upcoming_eq_nil_iff : s.upcoming = [] ↔ ∀ h ∈ s.servers, s.isBlacklisted h := by
  simp [upcoming, List.filter_eq_nil_iff]

-- The `k`-th index that is tried is that of the `k`-th server behind the cursor.
theorem isEligible_ahead {k : Nat} (hk : k < s.servers.length) :
    s.isEligible ((s.cursor + 1 + k) % s.servers.length) =
      ((s.servers.rotate (s.cursor + 1))[k]?.any (!s.isBlacklisted ·)) := by
  rw [List.getElem?_rotate hk, Nat.add_comm k, isEligible]
  cases s.servers[(s.cursor + 1 + k) % s.servers.length]? <;> rfl

-- Behind the server at place `k` behind the cursor come those after it, those before it and itself.
theorem rotate_behind {before after : List Handle}
    (hahead : s.servers.rotate (s.cursor + 1) = before ++ h :: after) :
    s.servers.rotate ((s.cursor + 1 + before.length) % s.servers.length + 1) =
      after ++ before ++ [h] := by
  calc s.servers.rotate ((s.cursor + 1 + before.length) % s.servers.length + 1)
    _ = (s.servers.rotate (s.cursor + 1)).rotate (before.length + 1) := by
      rw [← List.rotate_rotate, List.rotate_mod, List.rotate_rotate, List.rotate_rotate]
      rfl
    _ = (before ++ [h] ++ after).rotate (before ++ [h]).length := by
      rw [hahead, List.append_assoc, List.length_append]
      rfl
    _ = after ++ before ++ [h] := by rw [List.rotate_append_length_eq, List.append_assoc]

-- What is tried is what comes behind the cursor, up to the first server that is eligible.
theorem exists_of_find?_order {index : Nat} (hservers : s.servers ≠ [])
    (hfind : s.roundRobinOrder.find? s.isEligible = some index) : ∃ before h after,
      s.servers.rotate (s.cursor + 1) = before ++ h :: after ∧
        before.filter (!s.isBlacklisted ·) = [] ∧ s.isBlacklisted h = false ∧
        s.servers[index]? = some h ∧ index = (s.cursor + 1 + before.length) % s.servers.length := by
  have hlength : 0 < s.servers.length := List.length_pos_iff.mpr hservers
  rw [roundRobinOrder, List.find?_map, Option.map_eq_some_iff] at hfind
  obtain ⟨k, hfind, rfl⟩ := hfind
  obtain ⟨heligible, hrange, hbefore⟩ := List.find?_range_eq_some.mp hfind
  -- The last index that is tried is the first one again.
  have hk : k < s.servers.length := by
    refine Nat.lt_of_le_of_ne (Nat.le_of_lt_succ (List.mem_range.mp hrange)) fun hk => ?_
    subst hk
    have := hbefore 0 hlength
    simp_all
  rw [Function.comp_apply, isEligible_ahead hk, Option.any_eq_true] at heligible
  obtain ⟨h, hget, hfree⟩ := heligible
  rw [Bool.not_eq_true'] at hfree
  obtain ⟨hk', rfl⟩ := List.getElem?_eq_some_iff.mp hget
  refine ⟨(s.servers.rotate (s.cursor + 1)).take k, _,
    (s.servers.rotate (s.cursor + 1)).drop (k + 1), ?_, ?_, hfree, ?_, ?_⟩
  · rw [List.getElem_cons_drop, List.take_append_drop]
  · rw [List.filter_eq_nil_iff]
    intro h hh
    obtain ⟨j, hj, rfl⟩ := List.mem_take_iff_getElem.mp hh
    have hjk : j < k := by omega
    have := hbefore j hjk
    rw [Function.comp_apply, isEligible_ahead (hjk.trans hk),
      List.getElem?_eq_getElem (hjk.trans hk')] at this
    simpa using this
  · rw [← hget, List.getElem?_rotate hk, Nat.add_comm k]
  · rw [List.length_take, Nat.min_eq_left hk'.le]

-- The first eligible server behind the cursor is picked, and then comes last in turn.
theorem pickRoundRobin_cases (hservers : s.servers ≠ []) :
    s.upcoming = [] ∧ s.pickRoundRobin = (none, s) ∨
      ∃ h rest cursor, s.upcoming = h :: rest ∧
        s.pickRoundRobin = (some h, { s with cursor }) ∧
        upcoming { s with cursor } = rest ++ [h] := by
  rw [pickRoundRobin]
  cases hfind : s.roundRobinOrder.find? s.isEligible
  case none =>
    refine .inl ⟨?_, rfl⟩
    rw [roundRobinOrder, List.find?_map, Option.map_eq_none_iff, List.find?_range_eq_none] at hfind
    rw [upcoming, List.filter_eq_nil_iff]
    intro h hh
    obtain ⟨k, hk, rfl⟩ := List.mem_iff_getElem.mp hh
    have hk' : k < s.servers.length := List.length_rotate .. ▸ hk
    have := hfind k (Nat.lt_succ_of_lt hk')
    rw [Function.comp_apply, isEligible_ahead hk', List.getElem?_eq_getElem hk] at this
    simpa using this
  case some index =>
    obtain ⟨before, h, after, hahead, hpassed, hfree, hget, rfl⟩ :=
      exists_of_find?_order hservers hfind
    refine .inr ⟨h, after.filter (!s.isBlacklisted ·), _, ?_, congrArg (·, _) hget, ?_⟩
    · simp [upcoming, hahead, List.filter_append, hpassed, hfree]
    · change (s.servers.rotate _).filter (!s.isBlacklisted ·) = _
      simp [rotate_behind hahead, List.filter_append, hpassed, hfree]

-- Without a server in turn a call fails.
theorem next_cases (hpolicy : s.config.policy = .roundRobin) (hservers : s.servers ≠ []) :
    s.upcoming = [] ∧ (∃ e, s.next = (.error e, s.wake)) ∨
      ∃ h rest cursor, s.upcoming = h :: rest ∧ s.next = (.ok h, { s with cursor }) ∧
        upcoming { s with cursor } = rest ++ [h] := by
  have hempty : s.servers.isEmpty = false := by simpa using hservers
  rw [next, hempty, if_neg Bool.false_ne_true, pick, hpolicy]
  obtain ⟨hnone, hpick⟩ | ⟨h, rest, cursor, hfirst, hpick, hafter⟩ := pickRoundRobin_cases hservers
  · rw [hpick]
    exact .inl ⟨hnone, _, rfl⟩
  · rw [hpick]
    exact .inr ⟨h, rest, cursor, hfirst, rfl, hafter⟩

-- All through the run the list and the blacklist stay as they are.
def Steady (s : Selector) : List Step → Prop
  | [] => True
  | step :: rest => (s.take step).servers = s.servers ∧ (s.take step).blacklist = s.blacklist ∧
      (s.take step).Steady rest

theorem Steady.of_append {later : List Step} (h : s.Steady (steps ++ later)) :
    s.Steady steps ∧ (s.through steps).Steady later ∧
      (s.through steps).servers = s.servers ∧ (s.through steps).blacklist = s.blacklist := by
  induction steps generalizing s
  case nil => exact ⟨trivial, h, rfl, rfl⟩
  case cons step rest ih =>
    obtain ⟨hservers, hblacklist, hrest⟩ := h
    obtain ⟨hfirst, hlater, hservers', hblacklist'⟩ := ih hrest
    exact ⟨⟨hservers, hblacklist, hfirst⟩, hlater, hservers'.trans hservers,
      hblacklist'.trans hblacklist⟩

-- The answers to calls for a server.
def answers (s : Selector) : Step → List (Except SelectorError Handle)
  | .next => [s.next.1]
  | _ => []

theorem upcoming_congr (hservers : t.servers = s.servers) (hblacklist : t.blacklist = s.blacklist)
    (hcursor : t.cursor = s.cursor) : t.upcoming = s.upcoming := by
  rw [upcoming, upcoming, hservers, hcursor]
  simp only [isBlacklisted, hblacklist]

-- A step of a steady run is a call, answered by the server whose turn it is, or moves no turn.
theorem take_turn (hpolicy : s.config.policy = .roundRobin) (hservers : s.servers ≠ [])
    (hfree : s.upcoming ≠ []) (hsteady : s.Steady [step]) :
    (∃ h rest, s.upcoming = h :: rest ∧ s.answers step = [.ok h] ∧
        (s.take step).upcoming = rest ++ [h]) ∨
      s.answers step = [] ∧ (s.take step).upcoming = s.upcoming := by
  obtain ⟨hservers', hblacklist', -⟩ := hsteady
  have hother (hstep : step ≠ .next) : (s.take step).upcoming = s.upcoming :=
    upcoming_congr hservers' hblacklist' ((s.take_moved step).cursor hstep)
  cases step
  case next =>
    obtain ⟨hnone, -⟩ | ⟨h, rest, cursor, hfirst, hnext, hafter⟩ := next_cases hpolicy hservers
    case inl => exact absurd hnone hfree
    case inr =>
      refine .inl ⟨h, rest, hfirst, ?_, ?_⟩
      · rw [answers, hnext]
      · rw [take, hnext]
        exact hafter
  all_goals exact .inr ⟨rfl, hother (by simp)⟩

-- The turns come round: each answer puts the server that it names behind all others.
theorem through_turns (hpolicy : s.config.policy = .roundRobin) (hservers : s.servers ≠ [])
    (hfree : s.upcoming ≠ []) (hsteady : s.Steady steps) :
    (s.through steps).upcoming = s.upcoming.rotate (s.along answers steps).length ∧
      ((s.along answers steps).length ≤ s.upcoming.length →
        s.along answers steps = (s.upcoming.take (s.along answers steps).length).map .ok) := by
  induction steps generalizing s
  case nil => simp [along, through]
  case cons step rest ih =>
    obtain ⟨hservers', hblacklist', hrest⟩ := hsteady
    have ih := ih (s := s.take step) ((s.take_moved step).config ▸ hpolicy) (hservers' ▸ hservers)
    change ((s.take step).through rest).upcoming = _ ∧ _
    rw [along]
    obtain ⟨h, others, hfirst, hanswer, hafter⟩ | ⟨hanswer, hafter⟩ :=
      take_turn hpolicy hservers hfree ⟨hservers', hblacklist', trivial⟩
    all_goals rw [hanswer]; rw [hafter] at ih
    case inl =>
      obtain ⟨hturn, hanswers⟩ := ih (by simp) hrest
      rw [hfirst, List.singleton_append, List.length_cons]
      refine ⟨hturn.trans (List.rotate_cons_succ ..).symm, fun hle => ?_⟩
      have hle : ((s.take step).along answers rest).length ≤ others.length :=
        Nat.le_of_succ_le_succ hle
      rw [List.take_succ_cons, List.map_cons, ← List.take_append_of_le_length hle,
        ← hanswers (by rw [List.length_append]; exact Nat.le_add_right_of_le hle)]
    case inr => exact ih hfree hrest

-- Under round robin a call fails only if all servers are blacklisted, and then the cursor stays.
-- Otherwise, as long as the list and the blacklist stay as they are, as many calls in a row as there
-- are eligible servers give each of them once, in the order of the list from behind the cursor on.
theorem next_in_turn (hpolicy : s.config.policy = .roundRobin) (hservers : s.servers ≠ []) :
    ((∃ e, s.next.1 = .error e) ↔ ∀ h ∈ s.servers, s.isBlacklisted h) ∧
      (∀ e, s.next.1 = .error e → s.next.2.cursor = s.cursor) ∧
      s.upcoming.IsRotated s.eligible ∧
      ∀ before calls, s.Steady (before ++ calls) →
        let answered := (s.through before).along answers calls
        answered.length = s.eligible.length → answered =
          (s.upcoming.rotate (s.along answers before).length).map .ok := by
  have hcases := next_cases hpolicy hservers
  refine ⟨?_, ?_, s.upcoming_isRotated, ?_⟩
  · rw [← upcoming_eq_nil_iff]
    obtain ⟨hnone, e, hnext⟩ | ⟨h, rest, cursor, hfirst, hnext, -⟩ := hcases
    · simp [hnext, hnone]
    · simp [hnext, hfirst]
  · obtain ⟨-, e, hnext⟩ | ⟨h, rest, cursor, -, hnext, -⟩ := hcases
    · simp [hnext, wake]
    · simp [hnext]
  · intro before calls hsteady answered hlength
    have hsame := s.upcoming_isRotated.perm.length_eq
    by_cases hfree : s.upcoming = []
    case pos =>
      rw [← hsame, hfree] at hlength
      rw [hfree, List.eq_nil_of_length_eq_zero hlength]
      simp
    case neg =>
      obtain ⟨hfirst, hlater, hservers', hblacklist'⟩ := hsteady.of_append
      obtain ⟨hturn, -⟩ := through_turns hpolicy hservers hfree hfirst
      have hcount : answered.length = (s.through before).upcoming.length := by
        rw [hturn, List.length_rotate, hlength, hsame]
      have hanswers := (through_turns (s.through_config before ▸ hpolicy) (hservers' ▸ hservers)
        (by simpa [hturn] using hfree) hlater).2 hcount.le
      rw [← hturn]
      change answered = _ at hanswers
      rw [hanswers, hcount, List.take_length]

-- The cursor is at the last of four servers when the list is cut to three, of which one fails.
def cutBehind : Selector :=
  (startedWith [hosted 1 "nn1" 8021, hosted 2 "nn2" 8022, hosted 3 "nn3" 8023,
    hosted 4 "nn4" 8024]).through [.next, .next, .next,
      .cluster (fun _ => false)
        (fun _ => [hosted 1 "nn1" 8021, hosted 2 "nn2" 8022, hosted 3 "nn3" 8023]),
      .refresh, .blacklist ⟨hosted 2 "nn2" 8022, 1⟩]

theorem cutBehind_next_in_turn : cutBehind.cursor = 3 ∧ cutBehind.along answers [.next, .next] =
    [.ok ⟨hosted 3 "nn3" 8023, 2⟩, .ok ⟨hosted 1 "nn1" 8021, 0⟩] := by
  have hlength : cutBehind.servers.length = 2 + 1 := by cbv
  obtain ⟨-, -, -, hturns⟩ := next_in_turn (by cbv) (List.ne_nil_of_length_eq_add_one hlength)
  refine ⟨by cbv, (hturns [] [.next, .next] ?_ (by cbv)).trans (by cbv)⟩
  simp only [List.nil_append, Steady]
  cbv

end NamespaceService.Selector
