import NamespaceService.Proofs.Selector.Runs

namespace NamespaceService.Selector

variable {s : Selector} {h : Handle} {steps : List Step}

-- Whatever is done with it, a closed selector stays closed, and only what is handed in comes on its
-- blacklist.
theorem closed_take (hclosed : s.closed = true) (step : Step) : (s.take step).closed = true ∧
    ∀ h ∈ (s.take step).blacklist, h ∈ s.blacklist ∨ .blacklist h = step := by
  have hsame : s.closed = true ∧ ∀ h ∈ s.blacklist, h ∈ s.blacklist ∨ .blacklist h = step :=
    ⟨hclosed, fun h hh => .inl hh⟩
  cases step
  case next =>
    obtain ⟨_, _, _, _, hnext⟩ := s.next_eq
    rw [take, hnext]
    exact hsame
  case all =>
    rw [take, allServers]
    split <;> exact hsame
  case leader =>
    rw [take, leader]
    split <;> exact hsame
  case blacklist h =>
    rw [take, blacklistServer]
    split
    case isFalse => exact hsame
    case isTrue =>
      split
      case isTrue => exact hsame
      case isFalse =>
        refine ⟨hclosed, fun k hk => ?_⟩
        obtain hk | rfl := List.mem_append.mp hk |>.imp_right List.mem_singleton.mp
        · exact .inl hk
        · exact .inr rfl
  case refresh =>
    rw [take, refresh, if_pos hclosed]
    exact hsame
  case hold slot h =>
    rw [take]
    split
    case isTrue =>
      obtain ⟨lines, hgo⟩ := letGo_eq (s.slot? slot).toList
        { s with held := (slot, h) :: s.held.filter (·.1 ≠ slot) }
      rw [hold, hgo]
      exact hsame
    case isFalse => exact hsame
  case release slot =>
    obtain ⟨lines, hgo⟩ := letGo_eq (s.slot? slot).toList
      { s with held := s.held.filter (·.1 ≠ slot) }
    rw [take, release, hgo]
    exact hsame
  case close =>
    rw [take, close, if_pos hclosed]
    exact hsame
  case drop =>
    obtain ⟨lines, hgo⟩ := letGo_eq (s.servers ++ s.blacklist)
      { s with servers := [], blacklist := [] }
    rw [take, hgo]
    exact ⟨hclosed, fun h hh => absurd hh List.not_mem_nil⟩
  case worker | cluster => exact hsame

theorem closed_through (hclosed : s.closed = true) (steps : List Step) :
    (s.through steps).closed = true ∧
      ∀ h ∈ (s.through steps).blacklist, h ∈ s.blacklist ∨ .blacklist h ∈ steps := by
  induction steps generalizing s
  case nil => exact ⟨hclosed, fun h hh => .inl hh⟩
  case cons step rest ih =>
    obtain ⟨hstep, hblacklist⟩ := closed_take hclosed step
    obtain ⟨hrest, hlater⟩ := ih hstep
    refine ⟨hrest, fun h hh => ?_⟩
    obtain hh | hh := hlater h hh
    · exact (hblacklist h hh).imp_right fun heq => List.mem_cons.mpr (.inl heq)
    · exact .inr (List.mem_cons_of_mem step hh)

theorem close_closed (s : Selector) : s.close.closed = true := by
  rw [close]
  split
  case isTrue hclosed => exact hclosed
  case isFalse =>
    obtain ⟨lines, hgo⟩ := letGo_eq (s.blacklist ++ s.servers)
      { s with servers := [], blacklist := [], closed := true }
    dsimp only
    rw [hgo]
    rfl

theorem close_blacklist (hopen : s.closed = false) : s.close.blacklist = [] := by
  obtain ⟨lines, hgo⟩ := letGo_eq (s.blacklist ++ s.servers)
    { s with servers := [], blacklist := [], closed := true }
  rw [close, hopen]
  dsimp only
  rw [hgo]
  rfl

-- After a selector was closed, the open connections are those that callers hold and those that are
-- on the blacklist; these were blacklisted since. The others have been closed, each once.
theorem openConnections_after_close (reachable : Reachable s) (later : List Step) :
    let t := s.close.through later
    let held := t.held.map Prod.snd
    t.cluster.openConnections = countConnections (t.blacklist ++ held) ∧
      (t.cluster.openConnections = countConnections held ↔
        ∀ h ∈ t.blacklist, h.connection ∈ held.map Handle.connection) ∧
      (s.closed = false → ∀ h ∈ t.blacklist, .blacklist h ∈ later) ∧
      ∃ addresses closed, t.Accounts (t.blacklist ++ held) addresses closed := by
  intro t held
  have hcoherent : t.Coherent := ((reachable.take .close).through later).coherent
  obtain ⟨hclosed, hblacklist⟩ := closed_through s.close_closed later
  obtain ⟨addresses, closed, accounts⟩ := hcoherent.accounts
  rw [handles, hcoherent.emptied hclosed, List.nil_append] at accounts
  have hcount := accounts.openConnections_eq
  refine ⟨hcount, hcount ▸ countConnections_append_eq_iff, fun hopen h hh => ?_,
    addresses, closed, accounts⟩
  have := hblacklist h hh
  rwa [close_blacklist hopen, or_iff_right List.not_mem_nil] at this

-- A caller holds a handle on the only server there is.
def lent : Selector :=
  (startedWith [hosted 1 "nn1" 8021]).take (.hold "a" ⟨hosted 1 "nn1" 8021, 0⟩)

theorem lent_reachable : Reachable lent :=
  (Reachable.startedWith _).take _

theorem lent_released :
    let t := lent.close.through [.release "a"]
    t.cluster.openConnections = countConnections (t.held.map Prod.snd) :=
  (openConnections_after_close lent_reachable [.release "a"]).2.1.mpr (by decide +kernel)

-- The handle is blacklisted before the caller lets go of it, and the connection stays open.
theorem late_blacklist_leaks : ¬∀ s, Reachable s → ∀ later : List Step,
    let t := s.close.through later
    t.cluster.openConnections = countConnections (t.held.map Prod.snd) := fun h =>
  absurd (h lent lent_reachable [.blacklist ⟨hosted 1 "nn1" 8021, 0⟩, .release "a"])
    (by decide +kernel)

end NamespaceService.Selector
