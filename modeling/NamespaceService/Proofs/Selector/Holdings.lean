import Mathlib.Data.Finset.Card
import Mathlib.Data.Finset.Range
import NamespaceService.Proofs.Selector.Ledger

namespace NamespaceService

-- On how many connections the handles are.
def countConnections (handles : List Handle) : Nat :=
  (handles.map Handle.connection).dedup.length

theorem countConnections_append_eq_iff {more handles : List Handle} :
    countConnections (more ++ handles) = countConnections handles ↔
      ∀ h ∈ more, h.connection ∈ handles.map Handle.connection := by
  rw [countConnections, countConnections, ← List.card_toFinset, ← List.card_toFinset,
    List.map_append, List.toFinset_append]
  constructor
  case mp =>
    intro hcard h hh
    have hsub : (handles.map Handle.connection).toFinset ⊆
        (more.map Handle.connection).toFinset ∪ (handles.map Handle.connection).toFinset :=
      Finset.subset_union_right
    have hsame := Finset.eq_of_subset_of_card_le hsub hcard.le
    rw [← List.mem_toFinset, hsame, Finset.mem_union, List.mem_toFinset]
    exact .inl (List.mem_map_of_mem hh)
  case mpr =>
    intro hmem
    rw [Finset.union_eq_right.mpr fun c hc => ?_]
    obtain ⟨h, hh, rfl⟩ := List.mem_map.mp (List.mem_toFinset.mp hc)
    exact List.mem_toFinset.mpr (hmem h hh)

namespace Selector

variable {s : Selector} {h k : Handle} {handles handles' kept gone : List Handle}
  {addresses : List SocketAddress} {closed : List ConnectionId} {c : ConnectionId}

-- Something went on at the cluster and was logged.
def recording (s : Selector) (events : List ClusterEvent) (lines : List LogLine) : Selector :=
  { s with
    cluster := { s.cluster with history := s.cluster.history ++ events }
    log := s.log ++ lines }

theorem recording_nil (s : Selector) : s.recording [] [] = s := by
  simp [recording]

theorem recording_recording (s : Selector) (events events' : List ClusterEvent)
    (lines lines' : List LogLine) :
    (s.recording events lines).recording events' lines' =
      s.recording (events ++ events') (lines ++ lines') := by
  simp [recording]

theorem note_eq (s : Selector) (level : Level) (message : String) :
    s.note level message = s.recording [] [{ level, message }] := by
  simp [note, recording]

-- Of handles that are let go in order, those that are the last on their connection.
def lastOn (kept : List Handle) : List Handle → List Handle
  | [] => []
  | h :: rest =>
    if (kept ++ rest).any (·.connection = h.connection) then lastOn kept rest
    else h :: lastOn kept rest

theorem letGo_eq (gone : List Handle) (s : Selector) : ∃ lines, letGo gone s =
    s.recording ((lastOn s.handles gone).map fun h => .closed h.server.endpoint) lines := by
  induction gone generalizing s
  case nil => exact ⟨[], (recording_nil s).symm⟩
  case cons h rest ih =>
    rw [letGo, lastOn]
    split
    case isTrue => exact ih s
    case isFalse =>
      obtain ⟨lines, hlines⟩ := ih (s.closeConnection h)
      rw [hlines]
      exact ⟨_, recording_recording s [.closed h.server.endpoint] _ _ _⟩

theorem letGo_handles (gone : List Handle) (s : Selector) : (letGo gone s).handles = s.handles := by
  obtain ⟨lines, hgo⟩ := letGo_eq gone s
  rw [hgo]
  rfl

theorem lastOn_sublist (kept gone : List Handle) : (lastOn kept gone).Sublist gone := by
  induction gone
  case nil => exact .slnil
  case cons h rest ih =>
    rw [lastOn]
    split
    case isTrue => exact ih.cons h
    case isFalse => exact ih.cons_cons h

theorem mem_lastOn_iff : c ∈ (lastOn kept gone).map Handle.connection ↔
    c ∈ gone.map Handle.connection ∧ c ∉ kept.map Handle.connection := by
  induction gone
  case nil => simp [lastOn]
  case cons h rest ih =>
    rw [lastOn]
    split
    case isTrue hany =>
      rw [ih]
      simp only [List.any_append, Bool.or_eq_true, List.any_eq_true, decide_eq_true_eq] at hany
      simp only [List.mem_map, List.mem_cons] at *
      grind
    case isFalse hany =>
      simp only [List.any_append, Bool.or_eq_true, List.any_eq_true, decide_eq_true_eq] at hany
      simp only [List.map_cons, List.mem_cons, ih]
      simp only [List.mem_map] at *
      grind

theorem lastOn_nodup (kept gone : List Handle) :
    ((lastOn kept gone).map Handle.connection).Nodup := by
  induction gone
  case nil => exact .nil
  case cons h rest ih =>
    rw [lastOn]
    split
    case isTrue => exact ih
    case isFalse hany =>
      refine List.nodup_cons.mpr ⟨fun hmem => hany ?_, ih⟩
      obtain ⟨k, hk, heq⟩ := List.mem_map.mp (mem_lastOn_iff.mp hmem).1
      simp only [List.any_append, Bool.or_eq_true, List.any_eq_true, decide_eq_true_eq]
      exact .inr ⟨k, hk, heq⟩

-- The history accounts for the handles: they are on the connections that are open.
structure Accounts (s : Selector) (handles : List Handle) (addresses : List SocketAddress)
    (closed : List ConnectionId) : Prop where
  ledger : Ledger s.cluster.history addresses closed
  opened : s.opened = addresses.length
  address : ∀ h ∈ handles, addresses[h.connection]? = some h.address
  holds_iff : ∀ c : Nat, c ∈ handles.map Handle.connection ↔ c < addresses.length ∧ c ∉ closed

namespace Accounts

theorem address_eq (accounts : s.Accounts handles addresses closed) (hh : h ∈ handles)
    (hk : k ∈ handles) (heq : h.connection = k.connection) : h.address = k.address := by
  have := accounts.address h hh
  rw [heq, accounts.address k hk] at this
  exact (Option.some.inj this).symm

theorem of_eq {t : Selector} (accounts : s.Accounts handles addresses closed)
    (hhistory : t.cluster.history = s.cluster.history) (hopened : t.opened = s.opened) :
    t.Accounts handles addresses closed where
  ledger := hhistory ▸ accounts.ledger
  opened := hopened ▸ accounts.opened
  address := accounts.address
  holds_iff := accounts.holds_iff

-- Only which connections are held counts, and where they lead.
theorem mono (accounts : s.Accounts handles addresses closed)
    (hfrom : ∀ k ∈ handles', ∃ h ∈ handles, k.connection = h.connection ∧ k.address = h.address)
    (hsame : handles.map Handle.connection ⊆ handles'.map Handle.connection) :
    s.Accounts handles' addresses closed where
  ledger := accounts.ledger
  opened := accounts.opened
  address k hk := by
    obtain ⟨h, hh, hconnection, haddress⟩ := hfrom k hk
    rw [hconnection, haddress, accounts.address h hh]
  holds_iff c := by
    refine ⟨fun hc => ?_, fun hc => hsame ((accounts.holds_iff c).mpr hc)⟩
    obtain ⟨k, hk, rfl⟩ := List.mem_map.mp hc
    obtain ⟨h, hh, hconnection, -⟩ := hfrom k hk
    exact (accounts.holds_iff _).mp (hconnection ▸ List.mem_map_of_mem hh)

theorem openConnections_eq (accounts : s.Accounts handles addresses closed) :
    s.cluster.openConnections = countConnections handles := by
  have hset : (handles.map Handle.connection).toFinset =
      Finset.range addresses.length \ closed.toFinset := by
    ext c
    simp [accounts.holds_iff c]
  have hsub : closed.toFinset ⊆ Finset.range addresses.length := fun c hc =>
    Finset.mem_range.mpr (accounts.ledger.lt c (List.mem_toFinset.mp hc))
  rw [Cluster.openConnections_eq accounts.ledger, countConnections, ← List.card_toFinset, hset,
    Finset.card_sdiff_of_subset hsub, Finset.card_range,
    List.toFinset_card_of_nodup accounts.ledger.nodup]

-- Letting go of handles closes the connections that nobody else is on.
theorem letGo (accounts : s.Accounts (s.handles ++ gone) addresses closed) :
    (letGo gone s).Accounts s.handles addresses
      (closed ++ (lastOn s.handles gone).map Handle.connection) := by
  induction gone generalizing s closed
  case nil => simpa [Selector.letGo, lastOn] using accounts
  case cons h rest ih =>
    rw [Selector.letGo, lastOn]
    split
    case isTrue hany =>
      refine ih (accounts.mono (fun k hk => ⟨k, by grind, rfl, rfl⟩) fun c hc => ?_)
      obtain ⟨k, hk, heq⟩ := List.any_eq_true.mp hany
      simp only [List.mem_map] at hc ⊢
      grind
    case isFalse hany =>
      have hh : h ∈ s.handles ++ h :: rest := by simp
      have hfresh := ((accounts.holds_iff _).mp (List.mem_map_of_mem hh)).2
      rw [List.map_cons, ← List.singleton_append, ← List.append_assoc]
      refine ih (s := s.closeConnection h)
        { ledger := .closed (accounts.address h hh) hfresh accounts.ledger
          opened := accounts.opened
          address := fun k hk => accounts.address k (by grind [closeConnection, note, handles])
          holds_iff := fun c => ?_ }
      have hne : h.connection ∉ (s.handles ++ rest).map Handle.connection := fun hmem => by
        obtain ⟨k, hk, heq⟩ := List.mem_map.mp hmem
        exact hany (List.any_eq_true.mpr ⟨k, hk, by simpa using heq⟩)
      have hiff := accounts.holds_iff c
      change c ∈ (s.handles ++ rest).map Handle.connection ↔ _
      simp only [List.map_append, List.map_cons, List.mem_append, List.mem_cons] at hiff hne ⊢
      grind

end Accounts

end Selector

end NamespaceService
