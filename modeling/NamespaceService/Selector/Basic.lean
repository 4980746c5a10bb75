import NamespaceService.Selector.Cluster
import NamespaceService.Selector.Config
import NamespaceService.Selector.Draws

namespace NamespaceService

abbrev ConnectionId := Nat

-- A connection to a server. Handles are held by the list of servers, by the blacklist and by
-- callers, and the connection is closed with the last handle on it.
structure Handle where
  server : Server
  connection : ConnectionId
deriving DecidableEq, Inhabited

namespace Handle

def address (h : Handle) : SocketAddress :=
  h.server.address

def text (h : Handle) : String :=
  s!"[RPC handle connected to {h.address.text}]"

def isListed (h : Handle) (handles : List Handle) : Bool :=
  handles.any (·.server.isSame h.server)

end Handle

structure Selector where
  config : SelectorConfig
  cluster : Cluster
  servers : List Handle := []
  blacklist : List Handle := []
  -- Handles that callers hold, by slot.
  held : List (String × Handle) := []
  opened : Nat := 0
  -- Where round robin went last.
  cursor : Nat := 0
  draws : Draws
  drawn : Nat := 0
  -- How often a refresh was asked for, and how many of these are still to come.
  wakes : Nat := 0
  awaited : Nat := 0
  closed : Bool := false
  log : List LogLine := []

namespace Selector

variable (s : Selector)

def note (level : Level) (message : String) : Selector :=
  { s with log := s.log ++ [{ level, message }] }

-- Asks for a refresh. The first wake is for a worker that waits; until it goes on, one more is
-- remembered.
def wake : Selector :=
  { s with wakes := s.wakes + 1, awaited := min 2 (s.awaited + 1) }

def handles : List Handle :=
  s.servers ++ s.blacklist ++ s.held.map Prod.snd

def closeConnection (h : Handle) : Selector :=
  { s with cluster := s.cluster.close h.server.endpoint }.note .debug
    s!"closed connection to {h.address.text}"

-- Lets go of handles in order; a connection is closed with the last handle on it.
def letGo : List Handle → Selector → Selector
  | [], s => s
  | h :: rest, s =>
    if (s.handles ++ rest).any (·.connection = h.connection) then letGo rest s
    else letGo rest (s.closeConnection h)

def slot? (slot : String) : Option Handle :=
  s.held.lookup slot

def release (slot : String) : Selector :=
  letGo (s.slot? slot).toList { s with held := s.held.filter (·.1 ≠ slot) }

-- Keeps a handle in a slot. What was in the slot is let go.
def hold (slot : String) (h : Handle) : Selector :=
  letGo (s.slot? slot).toList { s with held := (slot, h) :: s.held.filter (·.1 ≠ slot) }

def connected? (id : UInt64) : Option Handle :=
  s.servers.find? (·.server.id = id)

def isBlacklisted (h : Handle) : Bool :=
  h.isListed s.blacklist

-- Reports a failing server. It is not picked until the next refresh, which is asked for.
def blacklistServer (h : Handle) : Selector :=
  if s.isBlacklisted h then s.wake
  else
    ({ s with blacklist := s.blacklist ++ [h] }.note .info
      s!"blacklisted namenode {h.server.text}").wake

def emptyList : SelectorError :=
  .noAliveServer "namenode list is empty, refresh requested"

def allServers : Except SelectorError (List Handle) × Selector :=
  if s.servers.isEmpty then (.error emptyList, s.wake) else (.ok s.servers, s)

def leader : Except SelectorError Handle × Selector :=
  match s.servers with
  | [] => (.error emptyList, s.wake)
  | first :: _ => (.ok first, s)

def joined (handles : List Handle) : String :=
  ", ".intercalate (handles.map Handle.text)

def describe : String :=
  s!"connected to namenodes: {joined s.servers}; blacklisted: {joined s.blacklist}"

end Selector

end NamespaceService
