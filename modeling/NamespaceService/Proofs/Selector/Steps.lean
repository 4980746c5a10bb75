import NamespaceService.Proofs.Selector.Runs

namespace NamespaceService.Selector

variable {s t : Selector} {h k : Handle} {step : Step} {steps : List Step}

-- What picks go by, and how often a refresh was asked for.
def standing (s : Selector) :=
  (s.config, s.servers, s.blacklist, s.cursor, s.wakes)

theorem letGo_standing (gone : List Handle) (s : Selector) :
    (letGo gone s).standing = s.standing := by
  obtain ⟨lines, hgo⟩ := letGo_eq gone s
  rw [hgo]
  rfl

theorem close_standing (hopen : s.closed = false) :
    s.close.standing = (s.config, [], [], s.cursor, s.wakes) := by
  rw [close, hopen, if_neg Bool.false_ne_true]
  exact letGo_standing (s.blacklist ++ s.servers)
    { s with servers := [], blacklist := [], closed := true }

-- A refresh that succeeds clears the blacklist, unless the selector is closed.
theorem refresh_standing (s : Selector) :
    (s.closed = true ∨ ∃ e, s.refresh.1 = .error e) ∧ s.refresh.2.standing = s.standing ∨
      s.refresh.1 = .ok () ∧ ∃ servers,
        s.refresh.2.standing = (s.config, servers, [], s.cursor, s.wakes) := by
  cases hopen : s.closed
  case true =>
    refine .inl ⟨.inl rfl, ?_⟩
    rw [refresh, if_pos hopen]
    rfl
  case false =>
    obtain ⟨lines, hrefresh⟩ := refresh_eq hopen
    rw [hrefresh]
    cases s.membership?
    case none => exact .inl ⟨.inr ⟨_, rfl⟩, rfl⟩
    case some list =>
      refine .inr ⟨rfl, ?_⟩
      obtain ⟨lines', hreconcile⟩ :=
        reconcile_eq list (s.recording (Informant.conversation s.cluster s.informants) lines)
      exact ⟨_, by rw [Option.elim, hreconcile]; rfl⟩

def failure {α : Type} : Except SelectorError α → List SelectorError
  | .ok _ => []
  | .error e => [e]

-- The handles that are blacklisted.
def reported (s : Selector) : Step → List Handle
  | .blacklist h => if h ∈ s.handles then [h] else []
  | _ => []

-- The errors of calls for one server, for all of them and for the leader.
def failures (s : Selector) : Step → List SelectorError
  | .next => failure s.next.1
  | .all => failure s.allServers.1
  | .leader => failure s.leader.1
  | _ => []

-- Refreshes that succeed.
def renewals (s : Selector) : Step → List Unit
  | .refresh => match s.refresh.1 with
    | .ok () => [()]
    | .error _ => []
  | _ => []

-- What a step does to what picks go by.
structure Moved (s : Selector) (step : Step) (t : Selector) : Prop where
  config : t.config = s.config
  cursor : step ≠ .next → t.cursor = s.cursor
  wakes : t.wakes = s.wakes + (s.reported step).length + (s.failures step).length
  servers : s.renewals step = [] → t.servers = [] ∨ t.servers = s.servers ∧
    (s.blacklist ++ s.reported step).map Handle.address ⊆ t.blacklist.map Handle.address
  distinct : (s.blacklist.map Handle.address).Nodup → (t.blacklist.map Handle.address).Nodup

theorem isBlacklisted_iff : s.isBlacklisted h ↔ h.address ∈ s.blacklist.map Handle.address := by
  simp [isBlacklisted, Handle.isListed, Server.isSame, Handle.address]

namespace Moved

-- The lists stay as they are.
theorem still (cursor : Nat) (h : t.standing =
      (s.config, s.servers, s.blacklist, cursor, s.wakes + (s.failures step).length))
    (hcursor : step ≠ .next → cursor = s.cursor) (hreported : s.reported step = []) :
    s.Moved step t := by
  simp only [standing, Prod.mk.injEq] at h
  obtain ⟨hconfig, hservers, hblacklist, rfl, hwakes⟩ := h
  refine ⟨hconfig, hcursor, ?_, fun _ => .inr ⟨hservers, ?_⟩, hblacklist ▸ id⟩
  · rw [hwakes, hreported]
    rfl
  · rw [hreported, List.append_nil, hblacklist]
    exact List.Subset.refl _

-- The lists are emptied.
theorem emptied (h : t.standing = (s.config, [], [], s.cursor, s.wakes))
    (hreported : s.reported step = []) (hfailures : s.failures step = []) : s.Moved step t := by
  simp only [standing, Prod.mk.injEq] at h
  obtain ⟨hconfig, hservers, hblacklist, hcursor, hwakes⟩ := h
  refine ⟨hconfig, fun _ => hcursor, ?_, fun _ => .inl hservers, fun _ => ?_⟩
  · rw [hwakes, hreported, hfailures]
    rfl
  · rw [hblacklist]
    exact .nil

theorem blacklistServer (hh : h ∈ s.handles) :
    s.Moved (.blacklist h) (s.blacklistServer h) := by
  have hreported : s.reported (.blacklist h) = [h] := if_pos hh
  rw [Selector.blacklistServer]
  split
  case isTrue hlisted =>
    refine ⟨rfl, fun _ => rfl, ?_, fun _ => .inr ⟨rfl, ?_⟩, id⟩
    · rw [hreported]
      rfl
    · rw [hreported, List.map_append]
      exact List.append_subset.mpr ⟨List.Subset.refl _,
        List.cons_subset.mpr ⟨isBlacklisted_iff.mp hlisted, List.nil_subset _⟩⟩
  case isFalse hfree =>
    refine ⟨rfl, fun _ => rfl, ?_, fun _ => .inr ⟨rfl, ?_⟩, fun hnodup => ?_⟩
    · rw [hreported]
      rfl
    · rw [hreported]
      exact List.Subset.refl _
    · change ((s.blacklist ++ [h]).map Handle.address).Nodup
      rw [List.map_append]
      exact hnodup.append (List.nodup_singleton _)
        (List.disjoint_singleton.mpr fun hmem => hfree (isBlacklisted_iff.mpr hmem))

theorem refresh : s.Moved .refresh s.refresh.2 := by
  obtain ⟨-, hstill⟩ | ⟨hok, servers, hrenewed⟩ := s.refresh_standing
  case inl => exact still s.cursor hstill (fun _ => rfl) rfl
  case inr =>
    simp only [standing, Prod.mk.injEq] at hrenewed
    obtain ⟨hconfig, -, hblacklist, hcursor, hwakes⟩ := hrenewed
    refine ⟨hconfig, fun _ => hcursor, hwakes, fun hnone => ?_, fun _ => ?_⟩
    · simp [renewals, hok] at hnone
    · rw [hblacklist]
      exact .nil

theorem next : s.Moved .next s.next.2 := by
  obtain ⟨cursor, drawn, hpick⟩ := s.pick_eq
  refine still s.next.2.cursor ?_ nofun rfl
  rw [failures, Selector.next]
  split
  case isTrue => rfl
  case isFalse =>
    rcases hpicked : s.pick with ⟨_ | h, after⟩
    all_goals
      rw [hpicked] at hpick
      subst hpick
      rfl

end Moved

theorem take_moved (s : Selector) (step : Step) : s.Moved step (s.take step) := by
  have hstill : s.standing = (s.config, s.servers, s.blacklist, s.cursor, s.wakes) := rfl
  cases step
  case next => exact .next
  case all =>
    refine .still s.cursor ?_ (fun _ => rfl) rfl
    rw [take, failures, allServers]
    split <;> rfl
  case leader =>
    refine .still s.cursor ?_ (fun _ => rfl) rfl
    rw [take, failures, leader]
    split <;> rfl
  case blacklist h =>
    rw [take]
    split
    case isTrue hh => exact .blacklistServer hh
    case isFalse hh => exact .still s.cursor hstill (fun _ => rfl) (if_neg hh)
  case refresh => exact .refresh
  case hold slot h =>
    rw [take]
    split
    case isTrue => exact .still s.cursor (letGo_standing ..) (fun _ => rfl) rfl
    case isFalse => exact .still s.cursor hstill (fun _ => rfl) rfl
  case release slot => exact .still s.cursor (letGo_standing ..) (fun _ => rfl) rfl
  case close =>
    cases hclosed : s.closed
    case true =>
      rw [take, close, if_pos hclosed]
      exact .still s.cursor hstill (fun _ => rfl) rfl
    case false => exact .emptied (close_standing hclosed) rfl rfl
  case drop => exact .emptied (letGo_standing ..) rfl rfl
  case worker | cluster => exact .still s.cursor hstill (fun _ => rfl) rfl

-- What the steps of a run give, one after another.
def along {α : Type} (give : Selector → Step → List α) (s : Selector) : List Step → List α
  | [] => []
  | step :: rest => give s step ++ along give (s.take step) rest

theorem through_append (s : Selector) (steps later : List Step) :
    s.through (steps ++ later) = (s.through steps).through later :=
  List.foldl_append

theorem through_config (s : Selector) (steps : List Step) : (s.through steps).config = s.config := by
  induction steps generalizing s
  case nil => rfl
  case cons step rest ih => exact (ih _).trans (s.take_moved step).config

end NamespaceService.Selector
