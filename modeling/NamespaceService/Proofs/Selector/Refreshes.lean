import Mathlib.Data.List.Permutation
import NamespaceService.Proofs.Selector.Runs

namespace NamespaceService.Selector

variable {s t : Selector} {list : ServerList} {h : Handle} {gone : List Handle}

-- Those who are asked have nothing to tell but for the last one. Whatever was said, all but the
-- history of the cluster and the log is as it was, and so is every connection.
theorem refresh_asks_in_turn (reachable : Reachable s) (hopen : s.closed = false) :
    ∃ asked lines, let after := s.recording (asked.flatMap (Informant.exchange s.cluster)) lines
      asked <+: s.informants ∧
      (∀ i ∈ asked.dropLast, i.report? s.cluster = none) ∧
      (∀ list, s.membership? = some list →
        (∃ i, asked.getLast? = some i ∧ i.report? s.cluster = some list) ∧
        s.refresh = (.ok (), reconcile list after)) ∧
      (s.membership? = none → asked = s.informants ∧ s.refresh =
        (.error (.membership "no bootstrap endpoint returned active namenodes"), after)) ∧
      { after with cluster := s.cluster, log := s.log } = s ∧
      after.cluster.openConnections = s.cluster.openConnections ∧
      ∃ addresses closed, s.Accounts s.handles addresses closed ∧
        after.Accounts after.handles addresses closed := by
  obtain ⟨addresses, closed, accounts⟩ := reachable.coherent.accounts
  obtain ⟨lines, hrefresh⟩ := refresh_eq hopen
  have hafter := accounts.conversation s.informants lines
  refine ⟨Informant.consulted s.cluster s.informants, lines, Informant.consulted_prefix ..,
    Informant.report?_eq_none_of_consulted, fun list hlist => ?_, fun hnone => ?_, rfl, ?_,
    addresses, closed, accounts, hafter⟩
  · rw [hrefresh, hlist]
    exact ⟨Informant.getLast?_consulted hlist, rfl⟩
  · rw [hrefresh, hnone]
    exact ⟨Informant.consulted_eq_self hnone, rfl⟩
  · exact hafter.openConnections_eq.trans accounts.openConnections_eq.symm

-- All endpoints have gone down, that of the settings and those of the servers.
def cutOff : Selector :=
  (startedWith [hosted 1 "nn1" 8021, hosted 2 "nn2" 8022]).take
    (.cluster (fun _ => true) fun _ => [])

theorem cutOff_reachable : Reachable cutOff :=
  (Reachable.startedWith _).take _

-- The servers have gone down, and the endpoint of the settings knows of another one.
def orphaned : Selector :=
  (startedWith [hosted 1 "nn1" 8021, hosted 2 "nn2" 8022]).take
    (.cluster (· ≠ "bootstrap.cluster:8020") fun _ => [hosted 3 "nn3" 8023])

theorem orphaned_reachable : Reachable orphaned :=
  (Reachable.startedWith _).take _

theorem orphaned_report? (i : Informant) : i.report? orphaned.cluster =
    if i.endpoint = "bootstrap.cluster:8020" then some (.ofServers [hosted 3 "nn3" 8023])
    else none := by
  have hdown : orphaned.cluster.isDown i.endpoint =
      decide (i.endpoint ≠ "bootstrap.cluster:8020") := rfl
  have hmembers : orphaned.cluster.members i.endpoint = [hosted 3 "nn3" 8023] := rfl
  have hlisted : (ServerList.ofServers [hosted 3 "nn3" 8023]).isEmpty = false := by cbv
  simp only [Informant.report?, Cluster.report?, hdown, hmembers, hlisted, decide_eq_true_eq,
    Bool.false_eq_true, or_false, ite_not]

theorem orphaned_membership? :
    orphaned.membership? = some (.ofServers [hosted 3 "nn3" 8023]) := by
  have hinformants : orphaned.informants = [.connected (hosted 1 "nn1" 8021),
    .connected (hosted 2 "nn2" 8022), .configured "bootstrap.cluster:8020"] := by cbv
  have hfirst : (hosted 1 "nn1" 8021).endpoint = "127.0.0.1:8021" := by cbv
  have hsecond : (hosted 2 "nn2" 8022).endpoint = "127.0.0.1:8022" := by cbv
  simp [membership?, hinformants, orphaned_report?, Informant.endpoint, hfirst, hsecond]

theorem cutOff_fails_orphaned_recovers :
    (∃ asked lines, asked = cutOff.informants ∧ cutOff.refresh =
      (.error (.membership "no bootstrap endpoint returned active namenodes"),
        cutOff.recording (asked.flatMap (Informant.exchange cutOff.cluster)) lines)) ∧
    ∃ asked lines, asked <+: orphaned.informants ∧
      asked.getLast?.map Informant.endpoint = some "bootstrap.cluster:8020" ∧
      orphaned.refresh = (.ok (), reconcile (.ofServers [hosted 3 "nn3" 8023])
        (orphaned.recording (asked.flatMap (Informant.exchange orphaned.cluster)) lines)) := by
  constructor
  case left =>
    obtain ⟨asked, lines, -, -, -, hfails, -⟩ := refresh_asks_in_turn cutOff_reachable (by cbv)
    exact ⟨asked, lines, hfails (by cbv)⟩
  case right =>
    obtain ⟨asked, lines, hasked, -, htold, -⟩ := refresh_asks_in_turn orphaned_reachable (by cbv)
    obtain ⟨⟨i, hlast, hreport⟩, hrefresh⟩ := htold _ orphaned_membership?
    have hup : i.endpoint = "bootstrap.cluster:8020" := by
      by_contra hdown
      rw [orphaned_report?, if_neg hdown] at hreport
      cases hreport
    exact ⟨asked, lines, hasked, by rw [hlast, Option.map_some, hup], hrefresh⟩

-- What a refresh makes of a selector that is told a list: `gone` has a handle for each connection
-- that is closed.
structure Refreshed (s : Selector) (list : ServerList) (t : Selector) (gone : List Handle) :
    Prop where
  connected : ∀ address, address ∈ t.servers.map Handle.address ↔
    address ∈ list.servers.map Server.address ∧
      (address ∈ s.servers.map Handle.address ∨ ¬s.cluster.isDown address.text)
  distinct : (t.servers.map Handle.address).Nodup
  described : ∀ k ∈ t.servers, list.find? k.address = some k.server
  sorted : t.servers.Pairwise fun h k => h.server.id ≤ k.server.id
  kept : ∀ h ∈ s.servers, ∀ k ∈ t.servers, k.address = h.address → k.connection = h.connection
  new : ∀ k ∈ t.servers, k.address ∉ s.servers.map Handle.address → s.opened ≤ k.connection
  -- After asking, all new servers are connected to in the order of the list, and no others.
  history : t.cluster.history = s.cluster.history ++
    Informant.conversation s.cluster s.informants ++
    (list.servers.filter (·.address ∉ s.servers.map Handle.address)).map (attempt s.cluster) ++
    gone.map fun h => .closed h.server.endpoint
  letGo : gone.Sublist (s.blacklist ++ s.servers)
  closes : ∀ c, c ∈ gone.map Handle.connection ↔
    c ∈ (s.blacklist ++ s.servers).map Handle.connection ∧ c ∉ t.handles.map Handle.connection
  -- Of a server that is not listed any more the connection is closed once, if no caller holds it.
  dropped : ∀ h ∈ s.servers, h.address ∉ list.servers.map Server.address →
    (gone.map Handle.connection).count h.connection =
      if h.connection ∈ (s.held.map Prod.snd).map Handle.connection then 0 else 1
  accounts : ∃ addresses closed more, s.Accounts s.handles addresses closed ∧
    t.Accounts t.handles (addresses ++ more) (closed ++ gone.map Handle.connection)
  blacklist : t.blacklist = []
  held : t.held = s.held

-- A connection to a server that is not listed any more is not taken over.
theorem connection_not_mem_taken {addresses : List SocketAddress} {closed : List ConnectionId}
    (accounts : s.Accounts s.handles addresses closed) (hh : h ∈ s.servers)
    (hgone : h.address ∉ list.servers.map Server.address) :
    h.connection ∉ (taken list s).map Handle.connection := by
  have hhandles : ∀ h ∈ s.servers, h ∈ s.handles := fun h hh =>
    List.mem_append_left _ (List.mem_append_left _ hh)
  intro hmem
  obtain ⟨k, hk, heq⟩ := List.mem_map.mp hmem
  obtain hkept | hnew := mem_taken_iff.mp hk
  case inl =>
    obtain ⟨h', hh', hserver, hconnection⟩ := mem_kept_iff.mp hkept
    have haddress := accounts.address_eq (hhandles h hh) (hhandles h' hh') (heq ▸ hconnection)
    obtain ⟨hlisted, hfound⟩ := ServerList.mem_of_find? hserver
    exact hgone (haddress ▸ hfound ▸ List.mem_map_of_mem hlisted)
  case inr =>
    have hlt := List.mem_map_of_mem (f := Handle.connection) (hhandles h hh)
    have hlt := ((accounts.holds_iff _).mp hlt).1
    rw [← accounts.opened, ← heq] at hlt
    exact absurd hlt (Nat.not_lt.mpr (mem_openedFrom_iff.mp hnew).1)

theorem count_connection_dropped {addresses : List SocketAddress} {closed : List ConnectionId}
    (accounts : s.Accounts s.handles addresses closed) (hh : h ∈ s.servers)
    (hgone : h.address ∉ list.servers.map Server.address) :
    ((dropped list s).map Handle.connection).count h.connection =
      if h.connection ∈ (s.held.map Prod.snd).map Handle.connection then 0 else 1 := by
  have htaken := connection_not_mem_taken accounts hh hgone
  have hmem : h.connection ∈ (dropped list s).map Handle.connection ↔
      h.connection ∉ (s.held.map Prod.snd).map Handle.connection := by
    have hgiven : h.connection ∈ (s.blacklist ++ s.servers).map Handle.connection :=
      List.mem_map_of_mem (List.mem_append_right _ hh)
    rw [dropped, mem_lastOn_iff, and_iff_right hgiven, List.map_append, List.mem_append,
      or_iff_right htaken]
  split
  case isTrue hheld => exact List.count_eq_zero_of_not_mem fun h => hmem.mp h hheld
  case isFalse hfree =>
    exact List.count_eq_one_of_mem (lastOn_nodup ..) (hmem.mpr hfree)

-- A refresh that is told a list takes it over.
theorem refresh_takes_over (reachable : Reachable s) (hopen : s.closed = false)
    (hlist : s.membership? = some list) :
    ∃ t gone, s.refresh = (.ok (), t) ∧ s.Refreshed list t gone := by
  obtain ⟨addresses, closed, accounts⟩ := reachable.coherent.accounts
  have hdistinct := reachable.coherent.distinct
  have proper := (membership?_eq_some hlist).1
  obtain ⟨lines, hrefresh⟩ := refresh_eq hopen
  rw [hlist] at hrefresh
  -- Asking leaves the servers and their state alone, so the list is taken over as by `s` itself.
  let after := s.recording (Informant.conversation s.cluster s.informants) lines
  have hafter := (accounts.conversation s.informants lines).reconcile (s := after) list
  obtain ⟨lines', hreconcile⟩ := reconcile_eq list after
  refine ⟨reconcile list after, dropped list s, hrefresh, ?_⟩
  rw [hreconcile] at hafter ⊢
  exact {
    connected := fun address => mem_address_taken_iff
    distinct := taken_nodup proper hdistinct
    described := fun k hk => find?_of_mem_taken proper hk
    sorted := taken_sorted list s
    kept := fun h hh k hk => connection_of_mem_taken hdistinct hh hk
    new := fun k hk => opened_le_of_mem_taken hk
    history := (List.append_assoc ..).symm
    letGo := lastOn_sublist ..
    closes := fun c => by
      rw [handles, List.append_nil]
      exact mem_lastOn_iff
    dropped := fun h hh => count_connection_dropped accounts hh
    accounts := ⟨addresses, closed, _, accounts, hafter⟩
    blacklist := rfl
    held := rfl }

-- Of two servers one has gone, the other is known by a new name, and there is a third.
def regrouped : Selector :=
  (startedWith [hosted 1 "nn1" 8021, hosted 2 "nn2" 8022]).take
    (.cluster (fun _ => false) fun _ => [hosted 3 "nn3" 8022, hosted 2 "nn2" 8023])

theorem regrouped_reachable : Reachable regrouped :=
  (Reachable.startedWith _).take _

theorem regrouped_takes_over : ∃ t gone, regrouped.refresh = (.ok (), t) ∧
    regrouped.Refreshed (.ofServers [hosted 3 "nn3" 8022, hosted 2 "nn2" 8023]) t gone :=
  refresh_takes_over regrouped_reachable (by cbv) (by cbv)

end NamespaceService.Selector
