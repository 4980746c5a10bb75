import NamespaceService.Selector.Worker

namespace NamespaceService.Session

-- A handle that a step names: the one in the slot, or else the first connected one with the id.
structure HandleName where
  slot : Option String := none
  id : Option UInt64 := none

inductive SelectorCall
  -- The server that was picked is kept in the slot, if one is given.
  | next (slot : Option String)
  | sample (picks : Nat)
  | all
  | leader
  | blacklist (handle : HandleName)
  | isBlacklisted (handle : HandleName)
  | refresh
  | describe
  | policy
  | stop
  | close

inductive SelectorStep
  | call (call : SelectorCall)
  | hold (id : UInt64) (slot : String)
  | release (slot : String)
  | inspect (handle : HandleName)
  | compare (first second : String)
  -- Without members a port left its word.
  | setMembers (members : Option (List Server))
  | setDown (endpoints : List String) (down : Bool)
  | tick (milliseconds : Nat)
  | drop

inductive SelectorAnswer
  | done
  | flag (value : Bool)
  | text (value : String)
  | policy (value : Policy)
  | handle (value : Handle)
  | handles (values : List Handle)
  -- Servers that were picked, each once, by id and address.
  | picked (servers : List (UInt64 × String))
  | inspected (value : Handle)
  | compared (isSameServer isSameConnection : Bool)
  | noSuchServer
  | failed (error : SelectorError)
  | overflow

structure SelectorView where
  connected : List Handle
  blacklist : List Handle
  wakes : Nat

structure SelectorObservation where
  answer : SelectorAnswer
  view : Option SelectorView
  openConnections : Nat
  -- How often each endpoint was connected to, and how many of its connections were closed.
  connections : List (String × Nat × Nat)

-- Time is virtual and passes only in steps that say so; after every step the worker runs until it
-- is idle.
structure SelectorSession where
  service : Service
  isDropped : Bool := false
  -- Wakes for picks that failed in a sample.
  sampleWakes : Nat := 0

namespace SelectorSession

-- Starts a selector. Without a background refresh its worker is stopped at once.
def start (config : SelectorConfig) (cluster : Cluster) (background : Bool) :
    Except SelectorError SelectorSession :=
  match Selector.start config cluster (.ofSeed (config.randomSeed.getD 0)) with
  | .error e => .error e
  | .ok selector =>
    let service := Service.start selector
    .ok { service := if background then service.settle else service.stop }

variable (s : SelectorSession)

def selector : Selector :=
  s.service.selector

def withSelector (selector : Selector) : SelectorSession :=
  { s with service := { s.service with selector } }

def withCluster (cluster : Cluster) : SelectorSession :=
  s.withSelector { s.selector with cluster }

def named? (name : HandleName) : Option Handle :=
  (name.slot.bind s.selector.slot?).or (name.id.bind s.selector.connected?)

-- Picks again and again, and passes over picks that fail.
def sample : (picks : Nat) → SelectorSession → List Handle × SelectorSession
  | 0, s => ([], s)
  | picks + 1, s =>
    match s.selector.next with
    | (.ok h, selector) =>
      let (more, s) := sample picks (s.withSelector selector)
      (h :: more, s)
    | (.error _, selector) =>
      sample picks { s.withSelector selector with sampleWakes := s.sampleWakes + 1 }

def picked (handles : List Handle) : List (UInt64 × String) :=
  (SortedBy.ofList (handles.map fun h => (h.server.id, h.address.text)) :
    SortedBy (id : UInt64 × String → UInt64 × String)).toList

def onHandle (name : HandleName) (act : Handle → SelectorAnswer × SelectorSession) :
    SelectorAnswer × SelectorSession :=
  match s.named? name with
  | some h => act h
  | none => (.noSuchServer, s)

def keep (slot : String) (h : Handle) : SelectorSession :=
  s.withSelector (s.selector.hold slot h)

def perform : SelectorCall → SelectorAnswer × SelectorSession
  | .next slot =>
    match s.selector.next with
    | (.ok h, selector) =>
      let s := s.withSelector selector
      (.handle h, match slot with
        | some slot => s.keep slot h
        | none => s)
    | (.error e, selector) => (.failed e, s.withSelector selector)
  | .sample picks => let (handles, s) := sample picks s; (.picked (picked handles), s)
  | .all =>
    match s.selector.allServers with
    | (.ok handles, selector) => (.handles handles, s.withSelector selector)
    | (.error e, selector) => (.failed e, s.withSelector selector)
  | .leader =>
    match s.selector.leader with
    | (.ok h, selector) => (.handle h, s.withSelector selector)
    | (.error e, selector) => (.failed e, s.withSelector selector)
  | .blacklist name =>
    s.onHandle name fun h => (.done, s.withSelector (s.selector.blacklistServer h))
  | .isBlacklisted name => s.onHandle name fun h => (.flag (s.selector.isBlacklisted h), s)
  | .refresh =>
    match s.selector.refresh with
    | (.ok (), selector) => (.done, s.withSelector selector)
    | (.error e, selector) => (.failed e, s.withSelector selector)
  | .describe => (.text s.selector.describe, s)
  | .policy => (.policy s.selector.config.policy, s)
  | .stop => (.done, { s with service := s.service.stop })
  | .close => (.done, { s with service := s.service.close })

-- Handles that callers hold outlive the selector, and so does the cluster.
def take : SelectorStep → SelectorAnswer × SelectorSession
  | .call call => if s.isDropped then (.done, s) else s.perform call
  | .hold id slot => s.onHandle { id := some id } fun h => (.handle h, s.keep slot h)
  | .release slot =>
    (.flag (s.selector.slot? slot).isSome, s.withSelector (s.selector.release slot))
  | .inspect name => s.onHandle name fun h => (.inspected h, s)
  | .compare first second =>
    match s.selector.slot? first, s.selector.slot? second with
    | some h, some k => (.compared (h.server.isSame k.server) (h.connection = k.connection), s)
    | _, _ => (.noSuchServer, s)
  | .setMembers (some members) => (.done, s.withCluster (s.selector.cluster.setMembers members))
  | .setMembers none => (.overflow, s)
  | .setDown endpoints down =>
    (.done, s.withCluster (endpoints.foldl (·.setDown · down) s.selector.cluster))
  | .tick milliseconds => (.done, { s with service := s.service.advance milliseconds })
  | .drop =>
    if s.isDropped then (.flag false, s)
    else (.flag true, { s with service := s.service.drop, isDropped := true })

def view? : Option SelectorView :=
  if s.isDropped then none
  else some {
    connected := s.selector.servers
    blacklist := s.selector.blacklist
    wakes := s.selector.wakes - s.sampleWakes
  }

def observe (answer : SelectorAnswer) : SelectorObservation where
  answer := answer
  view := s.view?
  openConnections := s.selector.cluster.openConnections
  connections :=
    let cluster := s.selector.cluster
    cluster.endpoints.map fun e => (e, cluster.connects e, cluster.closes e)

def settle : SelectorSession :=
  { s with service := s.service.settle }

def run (s : SelectorSession) : List SelectorStep → List SelectorObservation × SelectorSession
  | [] => ([], s)
  | step :: steps =>
    let (answer, s) := s.take step
    let s := s.settle
    let (rest, s') := run s steps
    (s.observe answer :: rest, s')

end SelectorSession

end NamespaceService.Session
