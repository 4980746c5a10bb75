import NamespaceService.Selector.Basic

namespace NamespaceService.Selector

variable (s : Selector)

def isEligible (index : Nat) : Bool :=
  match s.servers[index]? with
  | some h => !s.isBlacklisted h
  | none => false

def roundRobinOrder : List Nat :=
  (List.range (s.servers.length + 1)).map fun k => (s.cursor + 1 + k) % s.servers.length

def pickRoundRobin : Option Handle × Selector :=
  match s.roundRobinOrder.find? s.isEligible with
  | some index => (s.servers[index]?, { s with cursor := index })
  | none => (none, s)

def triesPerPick : Nat := 10

def pickRandom : (tries : Nat) → Selector → Option Handle × Selector
  | 0, s => (none, s)
  | tries + 1, s =>
    let index := s.draws s.drawn % s.servers.length
    let s := { s with drawn := s.drawn + 1 }
    if s.isEligible index then (s.servers[index]?, s) else pickRandom tries s

def pick : Option Handle × Selector :=
  match s.config.policy with
  | .roundRobin => s.pickRoundRobin
  | .random => pickRandom triesPerPick s

-- The next server by the policy. Without one a refresh is asked for.
def next : Except SelectorError Handle × Selector :=
  if s.servers.isEmpty then (.error emptyList, s.wake)
  else match s.pick with
    | (some h, s) => (.ok h, s)
    | (none, s) => (.error (.noAliveServer "no eligible namenode, refresh requested"), s.wake)

end NamespaceService.Selector
