import NamespaceService.Selector.Basic

namespace NamespaceService.Selector

-- Asks connected servers one after another, until one gives a list that is not empty.
def askServers : List Handle → Selector → Option ServerList × Selector
  | [], s => (none, s)
  | h :: rest, s =>
    let (answer, cluster) := s.cluster.ask h.server.endpoint
    let s := { s with cluster }
    match answer with
    | .ok list =>
      if list.isEmpty then
        askServers rest (s.note .debug s!"{h.server.text} reported an empty namenode list")
      else (some list, s)
    | .error e =>
      askServers rest (s.note .debug s!"{h.server.text} could not report namenodes: {e.message}")

-- Servers that are not blacklisted are asked first.
def askOrder (s : Selector) : List Handle :=
  s.servers.filter (!s.isBlacklisted ·) ++ s.servers.filter s.isBlacklisted

-- Asks one endpoint over a connection that is opened for this and closed again.
def fetchFrom (s : Selector) (endpoint : String) : Except SelectorError ServerList × Selector :=
  match s.cluster.connect endpoint with
  | (.error e, cluster) => (.error e, { s with cluster })
  | (.ok (), cluster) =>
    let (answer, cluster) := cluster.ask endpoint
    (answer, { s with cluster := cluster.close endpoint })

-- Asks the configured endpoints one after another, until one gives a list that is not empty.
def bootstrap : List String → Selector → Except SelectorError ServerList × Selector
  | [], s => (.error (.membership "no bootstrap endpoint returned active namenodes"), s)
  | endpoint :: rest, s =>
    match s.fetchFrom endpoint with
    | (.ok list, s) =>
      if list.isEmpty then
        bootstrap rest (s.note .debug s!"{endpoint} reported an empty namenode list")
      else (.ok list, s.note .debug s!"bootstrapped {list.size} namenodes from {endpoint}")
    | (.error e, s) =>
      bootstrap rest
        (s.note .warn s!"failed to get namenode list from {endpoint}: {e.message}")

-- The handles of servers that `list` still names, described as it describes them.
def keepHandles (list : ServerList) : List Handle → Selector → List Handle × Selector
  | [], s => ([], s)
  | h :: rest, s =>
    match list.find? h.address with
    | none => keepHandles list rest s
    | some reported =>
      if reported.id = h.server.id ∧ reported.hostname = h.server.hostname then
        let (kept, s) := keepHandles list rest s
        (h :: kept, s)
      else
        let s := s.note .debug s!"namenode {h.server.text} is now {reported.text}"
        let (kept, s) := keepHandles list rest s
        ({ h with server := reported } :: kept, s)

def connectTo (s : Selector) (server : Server) : Option Handle × Selector :=
  match s.cluster.connect server.endpoint with
  | (.ok (), cluster) =>
    (some { server, connection := s.opened }, { s with cluster, opened := s.opened + 1 })
  | (.error e, cluster) =>
    (none, { s with cluster }.note .warn
      s!"unable to connect to namenode {server.endpoint}: {e.message}")

def openHandles (current : List Handle) : List Server → Selector → List Handle × Selector
  | [], s => ([], s)
  | server :: rest, s =>
    if current.any (·.address = server.address) then openHandles current rest s
    else
      let (opened, s) := s.connectTo server
      let (more, s) := openHandles current rest s
      (opened.toList ++ more, s)

def sortById (handles : List Handle) : List Handle :=
  handles.mergeSort fun h k => h.server.id ≤ k.server.id

def reconcile (list : ServerList) (s : Selector) : Selector :=
  let (kept, s) := keepHandles list s.servers s
  let (opened, s) := openHandles s.servers list.servers s
  let removed := s.servers.length - kept.length
  let next := sortById (kept ++ opened)
  let s := letGo (s.blacklist ++ s.servers) { s with servers := next, blacklist := [] }
  s.note .info
    s!"namenode list refreshed: {opened.length} added, {removed} removed, {next.length} connected"

def refresh (s : Selector) : Except SelectorError Unit × Selector :=
  if s.closed then (.ok (), s.note .debug "selector closed, skipping refresh")
  else match askServers s.askOrder s with
    | (some list, s) => (.ok (), reconcile list s)
    | (none, s) =>
      match bootstrap s.config.endpoints s with
      | (.ok list, s) => (.ok (), reconcile list s)
      | (.error e, s) => (.error e, s)

-- A selector with its first list of servers. A failed refresh leaves it empty.
def start (config : SelectorConfig) (cluster : Cluster) (draws : Draws) :
    Except SelectorError Selector :=
  match config.validate with
  | .error reason => .error (.config reason)
  | .ok () =>
    let s := match refresh { config, cluster, draws } with
      | (.ok (), s) => s
      | (.error e, s) => s.note .warn s!"initial namenode list unavailable: {e.message}"
    .ok <| s.note .info
      s!"namenode selector started with {s.servers.length} namenodes, policy {config.policy.name}"

-- Gives up all servers. Handles that callers hold keep their connections open.
def close (s : Selector) : Selector :=
  if s.closed then s
  else
    let count := s.servers.length
    let released := letGo (s.blacklist ++ s.servers)
      { s with servers := [], blacklist := [], closed := true }
    released.note .info s!"namenode selector closed, released {count} connections"

end NamespaceService.Selector
