import NamespaceService.Proofs.Selector.Inquiries

namespace NamespaceService

namespace ServerList

variable {list : ServerList} {servers : List Server} {server : Server} {address : SocketAddress}

-- Every address once, in the order of the ids.
structure Proper (list : ServerList) : Prop where
  addresses : (list.servers.map Server.address).Nodup
  sorted : list.servers.Pairwise fun x y => x.id ≤ y.id

theorem distinct_nodup (servers : List Server) : ((distinct servers).map Server.address).Nodup := by
  induction servers
  case nil => exact .nil
  case cons server rest ih =>
    rw [distinct, List.map_cons, List.nodup_cons]
    refine ⟨fun hmem => ?_, ih.sublist (List.filter_sublist.map _)⟩
    obtain ⟨other, hother, heq⟩ := List.mem_map.mp hmem
    simp [Server.isSame, heq] at hother

theorem le_id_trans {α : Type} (id : α → UInt64) (x y z : α) (hxy : decide (id x ≤ id y) = true)
    (hyz : decide (id y ≤ id z) = true) : decide (id x ≤ id z) = true := by
  rw [decide_eq_true_eq] at *
  exact UInt64.le_trans hxy hyz

theorem le_id_total {α : Type} (id : α → UInt64) (x y : α) :
    (decide (id x ≤ id y) || decide (id y ≤ id x)) = true := by
  simpa using UInt64.le_total (id x) (id y)

theorem pairwise_id_mergeSort {α : Type} (id : α → UInt64) (l : List α) :
    (l.mergeSort fun x y => id x ≤ id y).Pairwise fun x y => id x ≤ id y := by
  simpa using List.pairwise_mergeSort (le_id_trans id) (le_id_total id) l

theorem Proper.ofServers (servers : List Server) : (ofServers servers).Proper where
  addresses := ((List.mergeSort_perm _ _).map _).nodup_iff.mpr (distinct_nodup servers)
  sorted := pairwise_id_mergeSort Server.id _

theorem mem_of_find? (h : list.find? address = some server) :
    server ∈ list.servers ∧ server.address = address :=
  ⟨List.mem_of_find?_eq_some h, by simpa using List.find?_some h⟩

theorem contains_iff : list.contains address ↔ address ∈ list.servers.map Server.address := by
  simp [contains, find?]

theorem Proper.find?_of_mem (proper : list.Proper) (h : server ∈ list.servers) :
    list.find? server.address = some server := by
  have hsome : (list.find? server.address).isSome :=
    List.find?_isSome.mpr ⟨server, h, by simp⟩
  obtain ⟨found, hfound⟩ := Option.isSome_iff_exists.mp hsome
  obtain ⟨hmem, heq⟩ := mem_of_find? hfound
  rw [hfound, List.inj_on_of_nodup_map proper.addresses hmem h heq]

end ServerList

namespace Selector

variable {s : Selector} {list : ServerList} {servers : List Server} {server : Server}
  {h k : Handle} {handles : List Handle} {addresses : List SocketAddress}
  {closed : List ConnectionId} {n : Nat}

-- Handles of servers that are still listed, described as they are listed.
def kept (list : ServerList) (handles : List Handle) : List Handle :=
  handles.filterMap fun h => (list.find? h.address).map ({ h with server := · })

-- Servers that are listed and not connected.
def joining (handles : List Handle) (servers : List Server) : List Server :=
  servers.filter (·.address ∉ handles.map Handle.address)

def attempt (c : Cluster) (server : Server) : ClusterEvent :=
  if c.isDown server.endpoint then .refused server.endpoint else .connected server.endpoint

def reached (c : Cluster) (servers : List Server) : List Server :=
  servers.filter fun server => !c.isDown server.endpoint

-- New connections have the numbers from `n` on.
def openedFrom (n : Nat) (servers : List Server) : List Handle :=
  (servers.zipIdx n).map fun (server, connection) => { server, connection }

-- Connections to the servers are asked for, and those that come about are counted.
def opening (s : Selector) (servers : List Server) (lines : List LogLine) : Selector :=
  { s.recording (servers.map (attempt s.cluster)) lines with
    opened := s.opened + (reached s.cluster servers).length }

-- Servers that are newly connected to.
def arrivals (list : ServerList) (s : Selector) : List Server :=
  reached s.cluster (joining s.servers list.servers)

-- The handles after a list of servers was taken over.
def taken (list : ServerList) (s : Selector) : List Handle :=
  sortById (kept list s.servers ++ openedFrom s.opened (arrivals list s))

-- The handles that are let go and are the last on their connections.
def dropped (list : ServerList) (s : Selector) : List Handle :=
  lastOn (taken list s ++ s.held.map Prod.snd) (s.blacklist ++ s.servers)

theorem membership?_eq_some (h : s.membership? = some list) : list.Proper ∧ list.servers ≠ [] := by
  obtain ⟨i, -, hreport⟩ := List.exists_of_findSome?_eq_some h
  rw [Informant.report?, Cluster.report?] at hreport
  split at hreport
  case isTrue => cases hreport
  case isFalse hsome =>
    cases hreport
    exact ⟨.ofServers _, fun hempty => hsome (.inr (by simp [ServerList.isEmpty, hempty]))⟩

theorem keepHandles_eq (list : ServerList) (handles : List Handle) (s : Selector) :
    ∃ lines, keepHandles list handles s = (kept list handles, s.recording [] lines) := by
  induction handles generalizing s
  case nil => exact ⟨[], by rw [recording_nil]; rfl⟩
  case cons h rest ih =>
    rw [keepHandles, kept, List.filterMap_cons]
    split
    case h_1 hnone =>
      obtain ⟨lines, hlines⟩ := ih s
      exact ⟨lines, by rw [hlines, hnone]; rfl⟩
    case h_2 reported hsome =>
      rw [hsome]
      split
      case isTrue hsame =>
        obtain ⟨lines, hlines⟩ := ih s
        have haddress := (ServerList.mem_of_find? hsome).2
        have hserver : h.server = reported :=
          Server.ext hsame.1.symm hsame.2.symm (congrArg SocketAddress.ip haddress).symm
            (congrArg SocketAddress.port haddress).symm
        exact ⟨lines, by rw [hlines, ← hserver]; rfl⟩
      case isFalse =>
        let message := s!"namenode {h.server.text} is now {reported.text}"
        obtain ⟨lines, hlines⟩ := ih (s.note .debug message)
        rw [note_eq, recording_recording] at hlines
        exact ⟨[{ level := .debug, message }] ++ lines, by dsimp only; rw [note_eq, hlines]; rfl⟩

theorem exists_connectTo_eq (hdown : s.cluster.isDown server.endpoint) :
    ∃ line, s.connectTo server = (none, s.recording [.refused server.endpoint] [line]) := by
  rw [connectTo, Cluster.connect, if_pos hdown]
  exact ⟨_, rfl⟩

theorem connectTo_eq (hup : ¬s.cluster.isDown server.endpoint) : s.connectTo server =
    (some ⟨server, s.opened⟩,
      { s.recording [.connected server.endpoint] [] with opened := s.opened + 1 }) := by
  rw [connectTo, Cluster.connect, if_neg hup]
  simp [recording, Cluster.record]

theorem openHandles_eq (handles : List Handle) (servers : List Server) (s : Selector) :
    let new := joining handles servers
    ∃ lines, openHandles handles servers s =
      (openedFrom s.opened (reached s.cluster new), s.opening new lines) := by
  induction servers generalizing s
  case nil =>
    exact ⟨[], by simp [openHandles, joining, reached, openedFrom, opening, recording]⟩
  case cons server rest ih =>
    rw [openHandles]
    by_cases hknown : handles.any (·.address = server.address)
    case pos =>
      have hnew : joining handles (server :: rest) = joining handles rest :=
        List.filter_cons_of_neg (by simpa using hknown)
      rw [if_pos hknown, hnew]
      exact ih s
    case neg =>
      have hnew : joining handles (server :: rest) = server :: joining handles rest :=
        List.filter_cons_of_pos (by simpa using hknown)
      rw [if_neg hknown, hnew]
      by_cases hdown : s.cluster.isDown server.endpoint
      case pos =>
        obtain ⟨line, hconnect⟩ := exists_connectTo_eq hdown
        obtain ⟨lines, hlines⟩ := ih (s.recording [.refused server.endpoint] [line])
        refine ⟨line :: lines, ?_⟩
        rw [hconnect]
        dsimp only
        rw [hlines]
        simp [opening, recording, reached, attempt, hdown]
      case neg =>
        obtain ⟨lines, hlines⟩ :=
          ih { s.recording [.connected server.endpoint] [] with opened := s.opened + 1 }
        refine ⟨lines, ?_⟩
        rw [connectTo_eq hdown]
        dsimp only
        rw [hlines]
        simp [opening, recording, reached, attempt, hdown, openedFrom, Nat.add_assoc,
          Nat.add_comm 1]

theorem exists_reconcile_eq (list : ServerList) (s : Selector) : ∃ lines line, reconcile list s =
    (letGo (s.blacklist ++ s.servers)
      { s.opening (joining s.servers list.servers) lines with
        servers := taken list s, blacklist := [] }).recording [] [line] := by
  obtain ⟨lines, hkeep⟩ := keepHandles_eq list s.servers s
  obtain ⟨lines', hopen⟩ := openHandles_eq s.servers list.servers (s.recording [] lines)
  have hopening : (s.recording [] lines).opening (joining s.servers list.servers) lines' =
      s.opening (joining s.servers list.servers) (lines ++ lines') := by
    simp [opening, recording, reached]
  rw [reconcile, hkeep]
  dsimp only
  rw [show (s.recording [] lines).servers = s.servers from rfl, hopen, hopening]
  exact ⟨lines ++ lines', _, note_eq ..⟩

-- Servers that are still listed keep their connections, new ones are connected to in the order of
-- the list, and all other handles are let go.
theorem reconcile_eq (list : ServerList) (s : Selector) : ∃ lines, reconcile list s =
    { s.recording ((joining s.servers list.servers).map (attempt s.cluster) ++
        (dropped list s).map fun h => .closed h.server.endpoint) lines with
      servers := taken list s
      blacklist := []
      opened := s.opened + (arrivals list s).length } := by
  obtain ⟨lines, line, hreconcile⟩ := exists_reconcile_eq list s
  obtain ⟨lines', hgo⟩ := letGo_eq (s.blacklist ++ s.servers)
    { s.opening (joining s.servers list.servers) lines with
      servers := taken list s, blacklist := [] }
  refine ⟨lines ++ lines' ++ [line], ?_⟩
  rw [hreconcile, hgo]
  simp [opening, recording, handles, dropped, arrivals]

theorem mem_kept_iff : k ∈ kept list handles ↔
    ∃ h ∈ handles, list.find? h.address = some k.server ∧ k.connection = h.connection := by
  simp only [kept, List.mem_filterMap, Option.map_eq_some_iff]
  constructor
  case mp =>
    rintro ⟨h, hh, server, hserver, rfl⟩
    exact ⟨h, hh, hserver, rfl⟩
  case mpr =>
    rintro ⟨h, hh, hserver, hconnection⟩
    exact ⟨h, hh, k.server, hserver, by rw [← hconnection]⟩

theorem map_address_kept (list : ServerList) (handles : List Handle) :
    (kept list handles).map Handle.address = (handles.map Handle.address).filter list.contains := by
  induction handles
  case nil => rfl
  case cons h rest ih =>
    rw [kept, List.filterMap_cons, ← kept, List.map_cons, List.filter_cons, ServerList.contains]
    cases hfound : list.find? h.address
    case none => simpa using ih
    case some server =>
      have haddress : server.address = h.address := (ServerList.mem_of_find? hfound).2
      simpa [Handle.address, ih] using haddress

theorem mem_openedFrom_iff : k ∈ openedFrom n servers ↔
    n ≤ k.connection ∧ servers[k.connection - n]? = some k.server := by
  rw [openedFrom, List.mem_map]
  constructor
  case mp =>
    rintro ⟨⟨server, c⟩, hmem, rfl⟩
    exact List.mk_mem_zipIdx_iff_le_and_getElem?_sub.mp hmem
  case mpr => exact fun h => ⟨_, List.mk_mem_zipIdx_iff_le_and_getElem?_sub.mpr h, rfl⟩

theorem map_server_openedFrom (n : Nat) (servers : List Server) :
    (openedFrom n servers).map Handle.server = servers := by
  simp [openedFrom, Function.comp_def]

theorem map_address_openedFrom (n : Nat) (servers : List Server) :
    (openedFrom n servers).map Handle.address = servers.map Server.address := by
  rw [show Handle.address = Server.address ∘ Handle.server from rfl, ← List.map_map,
    map_server_openedFrom]

theorem map_connection_openedFrom (n : Nat) (servers : List Server) :
    (openedFrom n servers).map Handle.connection = List.range' n servers.length := by
  rw [← List.zipIdx_map_snd, openedFrom, List.map_map]
  rfl

theorem mem_arrivals_iff : server ∈ arrivals list s ↔ server ∈ list.servers ∧
    server.address ∉ s.servers.map Handle.address ∧ ¬s.cluster.isDown server.endpoint := by
  simp only [arrivals, reached, joining, List.mem_filter, decide_eq_true_eq, Bool.not_eq_true',
    Bool.not_eq_true, and_assoc]

theorem arrivals_sublist (list : ServerList) (s : Selector) :
    (arrivals list s).Sublist list.servers :=
  List.filter_sublist.trans List.filter_sublist

theorem taken_perm (list : ServerList) (s : Selector) :
    (taken list s).Perm (kept list s.servers ++ openedFrom s.opened (arrivals list s)) :=
  List.mergeSort_perm ..

theorem taken_sorted (list : ServerList) (s : Selector) :
    (taken list s).Pairwise fun h k => h.server.id ≤ k.server.id :=
  ServerList.pairwise_id_mergeSort (fun h : Handle => h.server.id) _

theorem mem_taken_iff : k ∈ taken list s ↔
    k ∈ kept list s.servers ∨ k ∈ openedFrom s.opened (arrivals list s) :=
  (taken_perm list s).mem_iff.trans List.mem_append

theorem mem_address_taken_iff : address ∈ (taken list s).map Handle.address ↔
    address ∈ list.servers.map Server.address ∧
      (address ∈ s.servers.map Handle.address ∨ ¬s.cluster.isDown address.text) := by
  rw [((taken_perm list s).map _).mem_iff, List.map_append, List.mem_append, map_address_kept,
    map_address_openedFrom, List.mem_filter, ServerList.contains_iff]
  have harrivals : address ∈ (arrivals list s).map Server.address ↔
      address ∈ list.servers.map Server.address ∧ address ∉ s.servers.map Handle.address ∧
        ¬s.cluster.isDown address.text := by
    simp only [List.mem_map, mem_arrivals_iff]
    constructor
    case mp =>
      rintro ⟨server, ⟨hlisted, hnew, hup⟩, rfl⟩
      exact ⟨⟨server, hlisted, rfl⟩, hnew, hup⟩
    case mpr =>
      rintro ⟨⟨server, hlisted, rfl⟩, hnew, hup⟩
      exact ⟨server, ⟨hlisted, hnew, hup⟩, rfl⟩
  rw [harrivals]
  by_cases hknown : address ∈ s.servers.map Handle.address <;> simp [hknown]

theorem taken_nodup (proper : list.Proper) (hnodup : (s.servers.map Handle.address).Nodup) :
    ((taken list s).map Handle.address).Nodup := by
  rw [((taken_perm list s).map _).nodup_iff, List.map_append, map_address_kept,
    map_address_openedFrom]
  refine List.nodup_append.mpr ⟨hnodup.filter _, ?_, ?_⟩
  · exact proper.addresses.sublist ((arrivals_sublist list s).map _)
  · rintro _ hkept _ hnew rfl
    obtain ⟨server, hserver, heq⟩ := List.mem_map.mp hnew
    exact (mem_arrivals_iff.mp hserver).2.1 (heq ▸ (List.mem_filter.mp hkept).1)

theorem find?_of_mem_taken (proper : list.Proper) (hk : k ∈ taken list s) :
    list.find? k.address = some k.server := by
  obtain hkept | hnew := mem_taken_iff.mp hk
  case inl =>
    obtain ⟨h, -, hserver, -⟩ := mem_kept_iff.mp hkept
    exact proper.find?_of_mem (ServerList.mem_of_find? hserver).1
  case inr =>
    have hserver := List.mem_of_getElem? (mem_openedFrom_iff.mp hnew).2
    exact proper.find?_of_mem (mem_arrivals_iff.mp hserver).1

-- A server that stays keeps its connection, and a new one gets one that was not there before.
theorem connection_of_mem_taken (hnodup : (s.servers.map Handle.address).Nodup)
    (hh : h ∈ s.servers) (hk : k ∈ taken list s) (heq : k.address = h.address) :
    k.connection = h.connection := by
  obtain hkept | hnew := mem_taken_iff.mp hk
  case inl =>
    obtain ⟨h', hh', hserver, hconnection⟩ := mem_kept_iff.mp hkept
    have haddress : k.address = h'.address := (ServerList.mem_of_find? hserver).2
    rw [hconnection, List.inj_on_of_nodup_map hnodup hh' hh (haddress.symm.trans heq)]
  case inr =>
    have hserver := List.mem_of_getElem? (mem_openedFrom_iff.mp hnew).2
    have hknown : k.address ∈ s.servers.map Handle.address := heq ▸ List.mem_map_of_mem hh
    exact absurd hknown (mem_arrivals_iff.mp hserver).2.1

theorem opened_le_of_mem_taken (hk : k ∈ taken list s)
    (hnew : k.address ∉ s.servers.map Handle.address) : s.opened ≤ k.connection := by
  obtain hkept | hopened := mem_taken_iff.mp hk
  case inl =>
    obtain ⟨h, hh, hserver, -⟩ := mem_kept_iff.mp hkept
    have haddress : k.address = h.address := (ServerList.mem_of_find? hserver).2
    exact absurd (haddress ▸ List.mem_map_of_mem hh) hnew
  case inr => exact (mem_openedFrom_iff.mp hopened).1

theorem ledger_attempts {events : List ClusterEvent} (c : Cluster)
    (ledger : Ledger events addresses closed) (servers : List Server) :
    Ledger (events ++ servers.map (attempt c))
      (addresses ++ (reached c servers).map Server.address) closed := by
  induction servers generalizing events addresses
  case nil => simpa [reached] using ledger
  case cons server rest ih =>
    rw [List.map_cons, List.append_cons, attempt, reached, List.filter_cons, ← reached]
    by_cases hdown : c.isDown server.endpoint
    case pos =>
      rw [if_pos hdown, if_neg (by simpa using hdown)]
      exact ih (.refused _ ledger)
    case neg =>
      rw [if_neg hdown, if_pos (by simpa using hdown), List.map_cons, List.append_cons addresses]
      exact ih (.opened server.address ledger)

namespace Accounts

theorem opening (accounts : s.Accounts handles addresses closed) (servers : List Server)
    (lines : List LogLine) : (s.opening servers lines).Accounts
      (handles ++ openedFrom s.opened (reached s.cluster servers))
      (addresses ++ (reached s.cluster servers).map Server.address) closed where
  ledger := ledger_attempts s.cluster accounts.ledger servers
  opened := by simp [Selector.opening, accounts.opened]
  address h hh := by
    obtain hh | hnew := List.mem_append.mp hh
    · have hknown := accounts.address h hh
      rwa [List.getElem?_append_left (List.getElem?_eq_some_iff.mp hknown).1]
    · obtain ⟨hle, hserver⟩ := mem_openedFrom_iff.mp hnew
      rw [List.getElem?_append_right (accounts.opened ▸ hle), ← accounts.opened, List.getElem?_map,
        hserver]
      rfl
  holds_iff c := by
    have hlt : c ∈ closed → c < addresses.length := accounts.ledger.lt c
    rw [List.map_append, List.mem_append, map_connection_openedFrom, List.mem_range'_1,
      List.length_append, List.length_map, accounts.opened, accounts.holds_iff c]
    by_cases hclosed : c ∈ closed
    case pos => simp [hclosed, hlt hclosed]
    case neg =>
      simp only [hclosed, not_false_eq_true, and_true]
      omega

theorem reconcile (accounts : s.Accounts s.handles addresses closed) (list : ServerList) :
    (reconcile list s).Accounts (reconcile list s).handles
      (addresses ++ (arrivals list s).map Server.address)
      (closed ++ (dropped list s).map Handle.connection) := by
  obtain ⟨lines, line, hreconcile⟩ := exists_reconcile_eq list s
  let t : Selector := { s.opening (joining s.servers list.servers) lines with
    servers := taken list s, blacklist := [] }
  have hhandles : t.handles = taken list s ++ s.held.map Prod.snd := by
    simp [t, handles, Selector.opening, recording]
  -- A kept handle may be described anew, but it is where it was.
  have hfrom : ∀ k ∈ t.handles ++ (s.blacklist ++ s.servers),
      ∃ h ∈ s.handles ++ openedFrom s.opened (arrivals list s),
        k.connection = h.connection ∧ k.address = h.address := by
    intro k hk
    rw [hhandles] at hk
    have hkept : k ∈ kept list s.servers → ∃ h ∈ s.servers,
        k.connection = h.connection ∧ k.address = h.address := fun hmem => by
      obtain ⟨h, hh, hserver, hconnection⟩ := mem_kept_iff.mp hmem
      exact ⟨h, hh, hconnection, (ServerList.mem_of_find? hserver).2⟩
    simp only [List.mem_append, mem_taken_iff, handles] at hk ⊢
    grind
  have hsame : (s.handles ++ openedFrom s.opened (arrivals list s)).map Handle.connection ⊆
      (t.handles ++ (s.blacklist ++ s.servers)).map Handle.connection := by
    refine List.map_subset _ fun h hh => ?_
    rw [hhandles]
    simp only [List.mem_append, mem_taken_iff, handles] at hh ⊢
    grind
  have htaken : t.Accounts (t.handles ++ (s.blacklist ++ s.servers))
      (addresses ++ (arrivals list s).map Server.address) closed :=
    ((accounts.opening _ lines).mono hfrom hsame).of_eq rfl rfl
  have hgone := htaken.letGo
  rw [show lastOn t.handles _ = dropped list s by rw [hhandles, dropped],
    ← letGo_handles (s.blacklist ++ s.servers) t] at hgone
  rw [hreconcile]
  exact hgone.of_eq (List.append_nil _) rfl

end Accounts

end Selector

end NamespaceService
