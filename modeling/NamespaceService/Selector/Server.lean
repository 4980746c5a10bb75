import NamespaceService.Json.Record
import NamespaceService.Row.Counter
import NamespaceService.Selector.Address

namespace NamespaceService

-- A server is known by its address.
@[ext]
structure Server where
  id : UInt64
  hostname : String
  ip : Ip
  port : UInt16
deriving DecidableEq, Inhabited

namespace Server

-- A server on this machine that is known by a number. It listens at 8020 and its id, or at the last
-- port if that is beyond the ports; there is none if the sum is no word.
def numbered? (id : UInt64) : Option Server :=
  (Counter.add? 8020 id).map fun port => {
    id
    hostname := s!"nn{id}"
    ip := .localhost
    port := if port.toNat < UInt16.size then port.toUInt16 else 0xffff
  }

def address (s : Server) : SocketAddress where
  ip := s.ip
  port := s.port

def endpoint (s : Server) : String :=
  s.address.text

def text (s : Server) : String :=
  s!"{s.hostname}#{s.id} ({s.endpoint})"

-- Two descriptions are of one server if they give the same address.
def isSame (s t : Server) : Bool :=
  s.address = t.address

def toJson (s : Server) : Json :=
  .record [
    ("id", .ofWord64 s.id),
    ("hostname", .ofText s.hostname),
    ("ip", .ofText s.ip.text),
    ("port", .ofNat s.port.toNat)]

def ofJson? (json : Json) : Option Server := do
  let [id, hostname, ip, port] ← json.fields? ["id", "hostname", "ip", "port"] | none
  return {
    id := ← id.word64?
    hostname := ← hostname.text?
    ip := ← ip.text?.bind Ip.ofText?
    port := ← port.word16?
  }

end Server

-- Each address once, ordered by id. The server with the least id leads.
structure ServerList where
  servers : List Server
deriving DecidableEq, Inhabited

namespace ServerList

-- Of several descriptions of one server the first counts.
def distinct : List Server → List Server
  | [] => []
  | s :: rest => s :: (distinct rest).filter (!s.isSame ·)

def ofServers (servers : List Server) : ServerList where
  servers := (distinct servers).mergeSort fun s t => s.id ≤ t.id

variable (l : ServerList)

def size : Nat :=
  l.servers.length

def isEmpty : Bool :=
  l.servers.isEmpty

def leader? : Option Server :=
  l.servers.head?

def find? (address : SocketAddress) : Option Server :=
  l.servers.find? (·.address = address)

def contains (address : SocketAddress) : Bool :=
  (l.find? address).isSome

def isSame (l m : ServerList) : Bool :=
  l.servers.map Server.address = m.servers.map Server.address

def countDistinct (lists : List ServerList) : Nat :=
  (distinct (lists.flatMap servers)).length

def toJson : Json :=
  .ofList Server.toJson l.servers

def ofJson? (json : Json) : Option ServerList :=
  (json.listOf? Server.ofJson?).map ofServers

end ServerList

end NamespaceService
