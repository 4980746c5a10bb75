import NamespaceService.Order.SortedBy
import NamespaceService.Selector.Server

namespace NamespaceService

inductive SelectorError
  -- No server can be picked now; a refresh has been asked for.
  | noAliveServer (what : String)
  | connect (endpoint reason : String)
  | membership (what : String)
  | config (what : String)
deriving DecidableEq, Inhabited

namespace SelectorError

def message : SelectorError → String
  | noAliveServer what => s!"no alive namenode: {what}"
  | connect endpoint reason => s!"failed to connect to {endpoint}: {reason}"
  | membership what => s!"active namenode list unavailable: {what}"
  | config what => s!"invalid selector configuration: {what}"

def isNoAliveServer : SelectorError → Bool
  | noAliveServer _ => true
  | _ => false

end SelectorError

inductive ClusterEvent
  | connected (endpoint : String)
  | refused (endpoint : String)
  | asked (endpoint : String)
  | closed (endpoint : String)
deriving DecidableEq

structure Cluster where
  isDown : String → Bool
  -- The servers that each endpoint reports.
  members : String → List Server
  history : List ClusterEvent

namespace Cluster

def ofMembers (servers : List Server) : Cluster where
  isDown _ := false
  members _ := servers
  history := []

variable (c : Cluster)

def setMembers (servers : List Server) : Cluster :=
  { c with members := fun _ => servers }

def setDown (endpoint : String) (down : Bool) : Cluster :=
  { c with isDown := fun e => if e = endpoint then down else c.isDown e }

def record (event : ClusterEvent) : Cluster :=
  { c with history := c.history ++ [event] }

def connect (endpoint : String) : Except SelectorError Unit × Cluster :=
  if c.isDown endpoint then
    (.error (.connect endpoint "connection refused"), c.record (.refused endpoint))
  else (.ok (), c.record (.connected endpoint))

-- Asks an endpoint over an open connection for the active servers.
def ask (endpoint : String) : Except SelectorError ServerList × Cluster :=
  let answer :=
    if c.isDown endpoint then .error (.membership s!"{endpoint} is unreachable")
    else .ok (.ofServers (c.members endpoint))
  (answer, c.record (.asked endpoint))

def close (endpoint : String) : Cluster :=
  c.record (.closed endpoint)

def connects (endpoint : String) : Nat :=
  c.history.count (.connected endpoint)

def closes (endpoint : String) : Nat :=
  c.history.count (.closed endpoint)

def endpoints : List String :=
  let connected := c.history.filterMap fun
    | .connected endpoint => some endpoint
    | _ => none
  (SortedBy.ofList connected : SortedBy (id : String → String)).toList

def openConnections : Nat :=
  (c.endpoints.map c.connects).foldl (· + ·) 0 - (c.endpoints.map c.closes).foldl (· + ·) 0

end Cluster

end NamespaceService
