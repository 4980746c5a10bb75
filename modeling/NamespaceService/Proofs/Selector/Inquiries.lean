import NamespaceService.Proofs.Selector.Holdings
import NamespaceService.Selector.Refresh

namespace NamespaceService

-- What an endpoint has to tell: it is up, and knows of some server.
def Cluster.report? (c : Cluster) (endpoint : String) : Option ServerList :=
  let list := ServerList.ofServers (c.members endpoint)
  if c.isDown endpoint ∨ list.isEmpty then none else some list

-- Who can be asked: a server over the connection to it, or else an endpoint of the settings.
inductive Informant
  | connected (server : Server)
  | configured (endpoint : String)

namespace Informant

variable {c : Cluster} {informants : List Informant} {list : ServerList}
  {events : List ClusterEvent} {addresses : List SocketAddress} {closed : List ConnectionId}

def endpoint : Informant → String
  | connected server => server.endpoint
  | configured endpoint => endpoint

def report? (i : Informant) (c : Cluster) : Option ServerList :=
  c.report? i.endpoint

-- An endpoint of the settings is asked over a connection that is closed as soon as it has answered.
def exchange (c : Cluster) : Informant → List ClusterEvent
  | connected server => [.asked server.endpoint]
  | configured endpoint =>
    if c.isDown endpoint then [.refused endpoint]
    else [.connected endpoint, .asked endpoint, .closed endpoint]

-- The informants up to the first one that has something to tell.
def consulted (c : Cluster) : List Informant → List Informant
  | [] => []
  | i :: rest => if (i.report? c).isSome then [i] else i :: consulted c rest

def conversation (c : Cluster) (informants : List Informant) : List ClusterEvent :=
  (consulted c informants).flatMap (exchange c)

theorem consulted_prefix (c : Cluster) (informants : List Informant) :
    consulted c informants <+: informants := by
  induction informants
  case nil => exact List.prefix_rfl
  case cons i rest ih =>
    rw [consulted]
    split
    case isTrue => exact List.prefix_append [i] rest
    case isFalse => exact (List.prefix_cons_inj i).mpr ih

-- Only the last one has something to tell.
theorem report?_eq_none_of_consulted :
    ∀ i ∈ (consulted c informants).dropLast, i.report? c = none := by
  induction informants
  case nil => simp [consulted]
  case cons i rest ih =>
    rw [consulted]
    split
    case isTrue => simp
    case isFalse hnone =>
      intro j hj
      cases hrest : consulted c rest
      case nil => simp [hrest] at hj
      case cons k more =>
        rw [hrest, List.dropLast_cons_cons, ← hrest] at hj
        obtain rfl | hj := List.mem_cons.mp hj
        · simpa using hnone
        · exact ih j hj

theorem getLast?_consulted (h : informants.findSome? (·.report? c) = some list) :
    ∃ i, (consulted c informants).getLast? = some i ∧ i.report? c = some list := by
  induction informants
  case nil => simp at h
  case cons i rest ih =>
    rw [List.findSome?_cons] at h
    rw [consulted]
    split at h
    case h_1 hsome => simp_all
    case h_2 hnone =>
      obtain ⟨j, hj, hreport⟩ := ih h
      rw [if_neg (by simp [hnone])]
      refine ⟨j, ?_, hreport⟩
      rw [List.getLast?_cons, hj, Option.getD_some]

theorem consulted_eq_self (h : informants.findSome? (·.report? c) = none) :
    consulted c informants = informants := by
  induction informants
  case nil => rfl
  case cons i rest ih =>
    rw [List.findSome?_eq_none_iff] at h ih
    rw [consulted, if_neg (by simp [h i]), ih fun j hj => h j (List.mem_cons_of_mem i hj)]

-- What was told before makes no difference.
theorem report?_record (i : Informant) (c : Cluster) (events : List ClusterEvent) :
    i.report? { c with history := events } = i.report? c :=
  rfl

theorem conversation_record (c : Cluster) (events : List ClusterEvent)
    (informants : List Informant) :
    conversation { c with history := events } informants = conversation c informants := by
  have hconsulted : consulted { c with history := events } informants = consulted c informants := by
    induction informants
    case nil => rfl
    case cons i rest ih => rw [consulted, consulted, ih, report?_record]
  rw [conversation, conversation, hconsulted]
  rfl

theorem conversation_cons (c : Cluster) (i : Informant) (rest : List Informant) :
    conversation c (i :: rest) =
      exchange c i ++ if (i.report? c).isSome then [] else conversation c rest := by
  rw [conversation, consulted]
  split
  case isTrue => simp
  case isFalse => rw [List.flatMap_cons, conversation]

theorem conversation_append (c : Cluster) (order others : List Informant) :
    conversation c (order ++ others) = conversation c order ++
      if (order.findSome? (·.report? c)).isSome then [] else conversation c others := by
  induction order
  case nil => rfl
  case cons i order ih =>
    rw [List.cons_append, conversation_cons, conversation_cons, List.findSome?_cons]
    cases hreport : i.report? c
    case none => simp [ih]
    case some list => simp

-- Whatever is asked, the connections that are kept stay as they are.
theorem ledger_conversation (ledger : Ledger events addresses closed) :
    Ledger (events ++ conversation c informants) addresses closed := by
  rw [conversation]
  induction consulted c informants generalizing events
  case nil => simpa using ledger
  case cons i rest ih =>
    rw [List.flatMap_cons, ← List.append_assoc]
    refine ih ?_
    cases i
    case connected server => exact .asked _ ledger
    case configured endpoint =>
      rw [exchange]
      split
      case isTrue => exact .refused _ ledger
      case isFalse => exact .passing _ ledger

end Informant

namespace Selector

open Informant

variable {s : Selector} {i : Informant} {order : List Informant} {list : ServerList}
  {lines : List LogLine}

-- First the connected servers that are not blacklisted, then those that are, then the settings.
def informants (s : Selector) : List Informant :=
  (s.servers.filter fun h => !s.isBlacklisted h).map (.connected ·.server) ++
    (s.servers.filter fun h => s.isBlacklisted h).map (.connected ·.server) ++
    s.config.endpoints.map .configured

-- The list that a refresh takes over.
def membership? (s : Selector) : Option ServerList :=
  s.informants.findSome? (·.report? s.cluster)

-- What it comes to when informants are asked.
def told (s : Selector) (order : List Informant) (lines : List LogLine) :
    Option ServerList × Selector :=
  (order.findSome? (·.report? s.cluster), s.recording (conversation s.cluster order) lines)

theorem told_nil (s : Selector) : s.told [] [] = (none, s) := by
  simp [told, conversation, consulted, recording_nil]

theorem told_cons_of_none (h : i.report? s.cluster = none) (line : LogLine) :
    (s.recording (exchange s.cluster i) [line]).told order lines =
      s.told (i :: order) (line :: lines) := by
  rw [told, told, recording_recording, List.findSome?_cons, conversation_cons, h]
  exact congrArg (fun events => (_, s.recording (_ ++ events) _)) (conversation_record ..)

theorem told_cons_of_some (h : i.report? s.cluster = some list) :
    s.told (i :: order) lines = (some list, s.recording (exchange s.cluster i) lines) := by
  rw [told, List.findSome?_cons, conversation_cons, h]
  simp

theorem told_append_of_none (h : (s.told order lines).1 = none) (others : List Informant)
    (lines' : List LogLine) :
    (s.told order lines).2.told others lines' = s.told (order ++ others) (lines ++ lines') := by
  have hnone : order.findSome? (·.report? s.cluster) = none := h
  rw [told, told, told, recording_recording, List.findSome?_append, conversation_append, hnone]
  exact congrArg (fun events => (_, s.recording (_ ++ events) _)) (conversation_record ..)

theorem told_append_of_some (h : (s.told order lines).1 = some list) (others : List Informant) :
    s.told (order ++ others) lines = s.told order lines := by
  have hsome : order.findSome? (·.report? s.cluster) = some list := h
  rw [told, told, List.findSome?_append, conversation_append, hsome]
  simp

theorem Accounts.conversation {handles : List Handle} {addresses : List SocketAddress}
    {closed : List ConnectionId} (accounts : s.Accounts handles addresses closed)
    (order : List Informant) (lines : List LogLine) :
    (s.recording (Informant.conversation s.cluster order) lines).Accounts handles addresses
      closed where
  ledger := ledger_conversation accounts.ledger
  opened := accounts.opened
  address := accounts.address
  holds_iff := accounts.holds_iff

-- What an answer has to tell.
def heard? : Except SelectorError ServerList → Option ServerList
  | .ok list => if list.isEmpty then none else some list
  | .error _ => none

theorem exists_ask_eq (c : Cluster) (endpoint : String) : ∃ answer,
    c.ask endpoint = (answer, c.record (.asked endpoint)) ∧ heard? answer = c.report? endpoint := by
  refine ⟨_, rfl, ?_⟩
  rw [Cluster.report?]
  by_cases hdown : c.isDown endpoint <;> simp [hdown, heard?]

theorem exists_fetchFrom_eq (s : Selector) (endpoint : String) : ∃ answer,
    s.fetchFrom endpoint =
      (answer, s.recording (exchange s.cluster (.configured endpoint)) []) ∧
    heard? answer = (Informant.configured endpoint).report? s.cluster := by
  rw [fetchFrom, Cluster.connect, exchange]
  by_cases hdown : s.cluster.isDown endpoint
  case pos =>
    refine ⟨.error (.connect endpoint "connection refused"), ?_, ?_⟩
    · simp [hdown, recording, Cluster.record]
    · simp [hdown, heard?, Informant.report?, Cluster.report?, Informant.endpoint]
  case neg =>
    obtain ⟨answer, hask, hheard⟩ := exists_ask_eq (s.cluster.record (.connected endpoint)) endpoint
    refine ⟨answer, ?_, hheard⟩
    rw [if_neg hdown, if_neg hdown]
    dsimp only
    rw [hask]
    simp [recording, Cluster.record, Cluster.close]

theorem exists_askServers_eq (hs : List Handle) (s : Selector) :
    ∃ lines, askServers hs s = s.told (hs.map fun h => .connected h.server) lines := by
  induction hs generalizing s
  case nil => exact ⟨[], s.told_nil.symm⟩
  case cons h rest ih =>
    have hgoes (line : LogLine) (hnone : (Informant.connected h.server).report? s.cluster = none) :
        ∃ lines, askServers rest (s.recording [.asked h.server.endpoint] [line]) =
          s.told ((h :: rest).map fun h => .connected h.server) lines := by
      obtain ⟨lines, hlines⟩ := ih (s.recording [.asked h.server.endpoint] [line])
      exact ⟨line :: lines, hlines.trans (told_cons_of_none hnone line)⟩
    obtain ⟨answer, hask, hheard⟩ := exists_ask_eq s.cluster h.server.endpoint
    have hheard : heard? answer = (Informant.connected h.server).report? s.cluster := hheard
    rw [askServers, hask]
    cases answer
    case error e => exact hgoes _ hheard.symm
    case ok list =>
      rw [heard?] at hheard
      dsimp only
      split at hheard
      case isTrue hempty =>
        rw [if_pos hempty]
        exact hgoes _ hheard.symm
      case isFalse hlist =>
        refine ⟨[], ?_⟩
        rw [if_neg hlist, List.map_cons, told_cons_of_some hheard.symm]
        simp [recording, exchange, Cluster.record]

theorem exists_bootstrap_eq (endpoints : List String) (s : Selector) : ∃ lines,
    bootstrap endpoints s = ((s.told (endpoints.map .configured) lines).1.elim
        (.error (.membership "no bootstrap endpoint returned active namenodes")) .ok,
      (s.told (endpoints.map .configured) lines).2) := by
  induction endpoints generalizing s
  case nil => exact ⟨[], by rw [List.map_nil, told_nil]; rfl⟩
  case cons endpoint rest ih =>
    have hgoes (line : LogLine) (hnone : (Informant.configured endpoint).report? s.cluster = none) :
        ∃ lines, bootstrap rest (s.recording (exchange s.cluster (.configured endpoint)) [line]) =
          ((s.told ((endpoint :: rest).map .configured) lines).1.elim
              (.error (.membership "no bootstrap endpoint returned active namenodes")) .ok,
            (s.told ((endpoint :: rest).map .configured) lines).2) := by
      obtain ⟨lines, hlines⟩ := ih (s.recording (exchange s.cluster (.configured endpoint)) [line])
      refine ⟨line :: lines, ?_⟩
      rw [hlines, told_cons_of_none hnone line, List.map_cons]
    obtain ⟨answer, hfetch, hheard⟩ := exists_fetchFrom_eq s endpoint
    rw [bootstrap, hfetch]
    cases answer
    case error e =>
      simp only [note_eq, recording_recording, List.append_nil, List.nil_append]
      exact hgoes _ hheard.symm
    case ok list =>
      rw [heard?] at hheard
      simp only [note_eq, recording_recording, List.append_nil, List.nil_append]
      split at hheard
      case isTrue hempty =>
        rw [if_pos hempty]
        exact hgoes _ hheard.symm
      case isFalse hlist =>
        rw [if_neg hlist]
        let line : LogLine :=
          { level := .debug, message := s!"bootstrapped {list.size} namenodes from {endpoint}" }
        refine ⟨[line], ?_⟩
        rw [List.map_cons, told_cons_of_some hheard.symm]
        rfl

-- A refresh asks the informants, and then takes over the list that it was told, or else leaves all
-- as it is.
theorem refresh_eq (hopen : s.closed = false) : ∃ lines,
    let after := s.recording (conversation s.cluster s.informants) lines
    s.refresh = s.membership?.elim
      (.error (.membership "no bootstrap endpoint returned active namenodes"), after)
      fun list => (.ok (), reconcile list after) := by
  obtain ⟨lines, hlines⟩ := exists_askServers_eq s.askOrder s
  have hinformants : s.informants = s.askOrder.map (fun h => Informant.connected h.server) ++
      s.config.endpoints.map .configured := by
    rw [informants, askOrder, List.map_append]
  rw [membership?]
  rcases hask : askServers s.askOrder s with ⟨_ | list, after⟩
  all_goals rw [hask] at hlines
  case some =>
    have htold := told_append_of_some (congrArg Prod.fst hlines.symm)
      (s.config.endpoints.map .configured)
    rw [← hinformants, ← hlines] at htold
    refine ⟨lines, ?_⟩
    rw [refresh, hopen, if_neg Bool.false_ne_true, hask]
    dsimp only
    rw [show s.informants.findSome? _ = some list from congrArg Prod.fst htold,
      show s.recording _ lines = after from congrArg Prod.snd htold]
    rfl
  case none =>
    obtain ⟨lines', hbootstrap⟩ := exists_bootstrap_eq s.config.endpoints after
    have htold := told_append_of_none (congrArg Prod.fst hlines.symm)
      (s.config.endpoints.map .configured) lines'
    rw [← hinformants, ← hlines] at htold
    refine ⟨lines ++ lines', ?_⟩
    have hconfig : after.config = s.config := congrArg (·.2.config) hlines
    rw [refresh, hopen, if_neg Bool.false_ne_true, hask]
    dsimp only
    rw [hconfig, hbootstrap, htold, told]
    cases s.informants.findSome? (·.report? s.cluster) <;> rfl

end Selector

end NamespaceService
