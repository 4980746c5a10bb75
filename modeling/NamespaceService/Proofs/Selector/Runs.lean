import NamespaceService.Proofs.Selector.Reconciliation
import NamespaceService.Selector.Pick

namespace NamespaceService.Selector

-- What is done with a selector: by its callers, by its worker or at the servers.
inductive Step
  | next
  | all
  | leader
  | blacklist (h : Handle)
  | refresh
  | hold (slot : String) (h : Handle)
  | release (slot : String)
  | close
  | drop
  -- The worker takes up wakes, and logs what it does besides refreshing.
  | worker (awaited : Nat) (lines : List LogLine)
  | cluster (isDown : String → Bool) (members : String → List Server)

-- Handles that are handed in are handles that somebody has. A selector that was dropped is not
-- called any more, but nothing here needs that.
def take (s : Selector) : Step → Selector
  | .next => s.next.2
  | .all => s.allServers.2
  | .leader => s.leader.2
  | .blacklist h => if h ∈ s.handles then s.blacklistServer h else s
  | .refresh => s.refresh.2
  | .hold slot h => if h ∈ s.handles then s.hold slot h else s
  | .release slot => s.release slot
  | .close => s.close
  | .drop => letGo (s.servers ++ s.blacklist) { s with servers := [], blacklist := [] }
  | .worker awaited lines => { s with awaited, log := s.log ++ lines }
  | .cluster isDown members => { s with cluster := { s.cluster with isDown, members } }

def through (s : Selector) (steps : List Step) : Selector :=
  steps.foldl take s

-- Selectors that are started at a cluster where nothing has happened yet, and what becomes of them.
inductive Reachable : Selector → Prop
  | start {config : SelectorConfig} {cluster : Cluster} {draws : Draws} {s : Selector}
      (fresh : cluster.history = []) (h : start config cluster draws = .ok s) : Reachable s
  | take {s : Selector} (reachable : Reachable s) (step : Step) : Reachable (s.take step)

variable {s t : Selector} {h : Handle}

theorem Reachable.through (reachable : Reachable s) (steps : List Step) :
    Reachable (s.through steps) := by
  induction steps generalizing s
  case nil => exact reachable
  case cons step rest ih => exact ih (reachable.take step)

structure Coherent (s : Selector) : Prop where
  accounts : ∃ addresses closed, s.Accounts s.handles addresses closed
  distinct : (s.servers.map Handle.address).Nodup
  slots : (s.held.map Prod.fst).Nodup
  emptied : s.closed = true → s.servers = []

-- What this is about.
def outline (s : Selector) :=
  (s.cluster.history, s.opened, s.servers, s.blacklist, s.held, s.closed)

namespace Coherent

theorem of_eq (coherent : s.Coherent) (h : t.outline = s.outline) : t.Coherent := by
  simp only [outline, Prod.mk.injEq] at h
  obtain ⟨hhistory, hopened, hservers, hblacklist, hheld, hclosed⟩ := h
  obtain ⟨addresses, closed, accounts⟩ := coherent.accounts
  have haccounts := accounts.of_eq hhistory hopened
  rw [handles, ← hservers, ← hblacklist, ← hheld] at haccounts
  exact {
    accounts := ⟨addresses, closed, haccounts⟩
    distinct := hservers ▸ coherent.distinct
    slots := hheld ▸ coherent.slots
    emptied := fun h => hservers ▸ coherent.emptied (hclosed ▸ h) }

theorem wake (coherent : s.Coherent) : s.wake.Coherent :=
  coherent.of_eq rfl

-- Handles may be taken away if they are let go.
theorem letGo (coherent : s.Coherent) (gone : List Handle)
    (hhistory : t.cluster.history = s.cluster.history) (hopened : t.opened = s.opened)
    (hsame : ∀ h, h ∈ t.handles ++ gone ↔ h ∈ s.handles)
    (hservers : t.servers.Sublist s.servers) (hslots : (t.held.map Prod.fst).Nodup)
    (hemptied : t.closed = true → t.servers = []) : (letGo gone t).Coherent := by
  obtain ⟨addresses, closed, accounts⟩ := coherent.accounts
  have haccounts : t.Accounts (t.handles ++ gone) addresses closed :=
    (accounts.of_eq hhistory hopened).mono (fun h hh => ⟨h, (hsame h).mp hh, rfl, rfl⟩)
      (List.map_subset _ fun h hh => (hsame h).mpr hh)
  have hgone := haccounts.letGo
  obtain ⟨lines, hgo⟩ := letGo_eq gone t
  rw [hgo] at hgone ⊢
  exact {
    accounts := ⟨_, _, hgone⟩
    distinct := coherent.distinct.sublist (hservers.map _)
    slots := hslots
    emptied := hemptied }

theorem blacklistServer (coherent : s.Coherent) (hh : h ∈ s.handles) :
    (s.blacklistServer h).Coherent := by
  rw [Selector.blacklistServer]
  split
  case isTrue => exact coherent.wake
  case isFalse =>
    refine (letGo (t := { s with blacklist := s.blacklist ++ [h] }) coherent [] rfl rfl
      (fun k => ?_) (.refl _) coherent.slots coherent.emptied).of_eq rfl
    simp only [handles, List.mem_append, List.mem_singleton, List.not_mem_nil, or_false] at hh ⊢
    grind

theorem mem_held_iff (coherent : s.Coherent) (slot : String) (k : Handle) :
    k ∈ (s.held.filter (·.1 ≠ slot)).map Prod.snd ++ (s.slot? slot).toList ↔
      k ∈ s.held.map Prod.snd := by
  rw [List.mem_append, Option.mem_toList, slot?, List.lookup_eq_some_iff]
  constructor
  case mp =>
    rintro (hmem | ⟨before, after, hheld, -⟩)
    · exact (List.filter_sublist.map Prod.snd).subset hmem
    · simp [hheld]
  case mpr =>
    intro hmem
    obtain ⟨⟨other, _⟩, hentry, rfl⟩ := List.mem_map.mp hmem
    by_cases hother : other = slot
    case neg =>
      exact .inl (List.mem_map_of_mem (List.mem_filter.mpr ⟨hentry, by simpa using hother⟩))
    case pos =>
      obtain ⟨before, after, hheld⟩ := List.append_of_mem hentry
      refine .inr ⟨before, after, hother ▸ hheld, fun p hp => ?_⟩
      have hslots := coherent.slots
      rw [hheld, List.map_append, List.nodup_append] at hslots
      have hne := hslots.2.2 p.1 (List.mem_map_of_mem hp) other (by simp)
      simpa [← hother] using hne.symm

theorem release (coherent : s.Coherent) (slot : String) : (s.release slot).Coherent := by
  refine coherent.letGo _ rfl rfl (fun k => ?_) (List.Sublist.refl _)
    (coherent.slots.sublist (List.filter_sublist.map _)) coherent.emptied
  have := coherent.mem_held_iff slot k
  simp only [handles, List.mem_append] at this ⊢
  grind

theorem hold (coherent : s.Coherent) (slot : String) (hh : h ∈ s.handles) :
    (s.hold slot h).Coherent := by
  refine coherent.letGo _ rfl rfl (fun k => ?_) (List.Sublist.refl _) ?_ coherent.emptied
  · have := coherent.mem_held_iff slot k
    simp only [handles, List.mem_append, List.map_cons, List.mem_cons] at hh this ⊢
    grind
  · rw [List.map_cons, List.nodup_cons]
    exact ⟨by simp, coherent.slots.sublist (List.filter_sublist.map _)⟩

theorem close (coherent : s.Coherent) : s.close.Coherent := by
  rw [Selector.close]
  split
  case isTrue => exact coherent
  case isFalse =>
    refine (coherent.letGo (s.blacklist ++ s.servers)
      (t := { s with servers := [], blacklist := [], closed := true }) rfl rfl (fun k => ?_)
      (List.nil_sublist _) coherent.slots fun _ => rfl).of_eq rfl
    simp only [handles, List.mem_append]
    grind

theorem reconcile (coherent : s.Coherent) {list : ServerList} (proper : list.Proper)
    (hopen : s.closed = false) : (reconcile list s).Coherent := by
  obtain ⟨addresses, closed, accounts⟩ := coherent.accounts
  have haccounts := accounts.reconcile list
  obtain ⟨lines, hreconcile⟩ := reconcile_eq list s
  rw [hreconcile] at haccounts ⊢
  exact {
    accounts := ⟨_, _, haccounts⟩
    distinct := taken_nodup proper coherent.distinct
    slots := coherent.slots
    emptied := fun h => absurd (hopen.symm.trans h) Bool.false_ne_true }

theorem conversation (coherent : s.Coherent) (lines : List LogLine) :
    (s.recording (Informant.conversation s.cluster s.informants) lines).Coherent where
  accounts := by
    obtain ⟨addresses, closed, accounts⟩ := coherent.accounts
    exact ⟨addresses, closed, accounts.conversation s.informants lines⟩
  distinct := coherent.distinct
  slots := coherent.slots
  emptied := coherent.emptied

theorem refresh (coherent : s.Coherent) : s.refresh.2.Coherent := by
  cases hopen : s.closed
  case true =>
    rw [Selector.refresh, if_pos hopen]
    exact coherent.of_eq rfl
  case false =>
    obtain ⟨lines, hrefresh⟩ := refresh_eq hopen
    have hafter := coherent.conversation lines
    rw [hrefresh]
    cases hlist : s.membership?
    case none => exact hafter
    case some list => exact hafter.reconcile (membership?_eq_some hlist).1 hopen

end Coherent

-- Picking moves the cursor or takes draws, and may ask for a refresh.
theorem pickRandom_eq (tries : Nat) (s : Selector) :
    ∃ drawn, (pickRandom tries s).2 = { s with drawn } := by
  induction tries generalizing s
  case zero => exact ⟨s.drawn, rfl⟩
  case succ tries ih =>
    rw [pickRandom]
    dsimp only
    split
    case isTrue => exact ⟨_, rfl⟩
    case isFalse =>
      obtain ⟨drawn, hdrawn⟩ := ih { s with drawn := s.drawn + 1 }
      exact ⟨drawn, hdrawn⟩

theorem pick_eq (s : Selector) : ∃ cursor drawn, s.pick.2 = { s with cursor, drawn } := by
  rw [pick]
  split
  case h_1 =>
    rw [pickRoundRobin]
    split
    case h_1 => exact ⟨_, _, rfl⟩
    case h_2 => exact ⟨_, _, rfl⟩
  case h_2 =>
    obtain ⟨drawn, hdrawn⟩ := pickRandom_eq triesPerPick s
    exact ⟨_, drawn, hdrawn⟩

theorem next_eq (s : Selector) : ∃ cursor drawn wakes awaited,
    s.next.2 = { s with cursor, drawn, wakes, awaited } := by
  obtain ⟨cursor, drawn, hpick⟩ := s.pick_eq
  rw [Selector.next]
  split
  case isTrue => exact ⟨_, _, _, _, rfl⟩
  case isFalse =>
    split
    case h_1 hsome =>
      rw [hsome] at hpick
      exact ⟨_, _, _, _, hpick⟩
    case h_2 picked hnone =>
      have hpicked : picked = { s with cursor, drawn } := by rw [← hpick, hnone]
      subst hpicked
      exact ⟨_, _, _, _, rfl⟩

theorem Coherent.take (coherent : s.Coherent) (step : Step) : (s.take step).Coherent := by
  cases step
  case next =>
    obtain ⟨_, _, _, _, hnext⟩ := s.next_eq
    rw [Selector.take, hnext]
    exact coherent.of_eq rfl
  case all =>
    rw [Selector.take, allServers]
    split
    case isTrue => exact coherent.wake
    case isFalse => exact coherent
  case leader =>
    rw [Selector.take, leader]
    split
    case h_1 => exact coherent.wake
    case h_2 => exact coherent
  case blacklist h =>
    rw [Selector.take]
    split
    case isTrue hh => exact coherent.blacklistServer hh
    case isFalse => exact coherent
  case refresh => exact coherent.refresh
  case hold slot h =>
    rw [Selector.take]
    split
    case isTrue hh => exact coherent.hold slot hh
    case isFalse => exact coherent
  case release slot => exact coherent.release slot
  case close => exact coherent.close
  case drop =>
    refine coherent.letGo _ rfl rfl (fun k => ?_) (List.nil_sublist _) coherent.slots fun _ => rfl
    simp only [handles, List.mem_append]
    grind
  case worker | cluster => exact coherent.of_eq rfl

theorem coherent_start {config : SelectorConfig} {cluster : Cluster} {draws : Draws}
    (fresh : cluster.history = []) (h : start config cluster draws = .ok s) : s.Coherent := by
  have hempty : ({ config, cluster, draws } : Selector).Coherent :=
    { accounts := ⟨[], [], {
        ledger := fresh ▸ .empty
        opened := rfl
        address := by simp [handles]
        holds_iff := by simp [handles] }⟩
      distinct := .nil
      slots := .nil
      emptied := fun _ => rfl }
  have hrefresh := hempty.refresh
  rw [Selector.start] at h
  split at h
  case h_1 => cases h
  case h_2 =>
    cases h
    split
    case h_1 hok =>
      rw [hok] at hrefresh
      exact hrefresh.of_eq rfl
    case h_2 herror =>
      rw [herror] at hrefresh
      exact hrefresh.of_eq rfl

theorem Reachable.coherent (reachable : Reachable s) : s.Coherent := by
  induction reachable
  case start fresh h => exact coherent_start fresh h
  case take step ih => exact ih.take step

-- No connection is open that neither the selector nor a caller is on.
theorem Reachable.openConnections_eq (reachable : Reachable s) :
    s.cluster.openConnections = countConnections s.handles := by
  obtain ⟨addresses, closed, accounts⟩ := reachable.coherent.accounts
  exact accounts.openConnections_eq

def hosted (id : UInt64) (hostname : String) (port : UInt16) : Server where
  id := id
  hostname := hostname
  ip := .localhost
  port := port

-- A new selector, when all endpoints report the servers.
def startedWith (servers : List Server) : Selector :=
  let config : SelectorConfig := { primary := some "bootstrap.cluster:8020" }
  match start config (.ofMembers servers) (.ofSeed 0) with
  | .ok s => s
  | .error _ => { config, cluster := .ofMembers servers, draws := .ofSeed 0 }

theorem start_startedWith (servers : List Server) :
    start { primary := some "bootstrap.cluster:8020" } (.ofMembers servers) (.ofSeed 0) =
      .ok (startedWith servers) := by
  have hvalid : ({ primary := some "bootstrap.cluster:8020" } : SelectorConfig).validate = .ok () :=
    by decide +kernel
  rw [startedWith, start, hvalid]

theorem Reachable.startedWith (servers : List Server) : Reachable (startedWith servers) :=
  .start rfl (start_startedWith servers)

end NamespaceService.Selector
