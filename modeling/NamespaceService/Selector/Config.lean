import NamespaceService.Settings.Schema

namespace NamespaceService

inductive Policy
  | roundRobin
  | random
deriving DecidableEq, Inhabited

namespace Policy

def name : Policy → String
  | roundRobin => "round-robin"
  | random => "random"

-- Case and the choice between `-` and `_` do not matter. Case is that of ASCII letters.
def normalize (name : String) : String :=
  String.ofList (name.toList.map fun c => if c = '_' then '-' else c.toLower)

def ofName? (name : String) : Option Policy :=
  match normalize name with
  | "round-robin" => some roundRobin
  | "random" => some random
  | _ => none

-- An unknown name stands for round-robin, with a warning.
def ofName (name : String) : Policy × List LogLine :=
  match ofName? name with
  | some policy => (policy, [])
  | none =>
    let message := s!"unknown selection policy {name}, using round-robin"
    (roundRobin, [{ level := .warn, message }])

end Policy

@[ext]
structure SelectorConfig where
  refreshPeriod : UInt64 := 60000
  policy : Policy := .roundRobin
  -- The endpoint that is asked first for the list of servers.
  primary : Option String := none
  -- Endpoints that are asked in order if that fails.
  candidates : List String := []
  randomSeed : Option UInt64 := none
deriving DecidableEq, Inhabited

namespace SelectorConfig

def endpoints (config : SelectorConfig) : List String :=
  config.primary.toList ++ config.candidates

def validate (config : SelectorConfig) : Except String Unit :=
  if config.refreshPeriod = 0 then .error "refresh_period_ms must be greater than 0"
  else if config.endpoints = [] then
    .error "A primary endpoint or at least one candidate must be configured"
  else if "" ∈ config.endpoints then .error "Bootstrap endpoints cannot be empty"
  else .ok ()

def fields : List String :=
  ["refresh_period_ms", "policy", "primary", "candidates", "random_seed"]

def setPolicy (name : Option String) (config : SelectorConfig) :
    Option SelectorConfig × List LogLine :=
  match name with
  | some name =>
    let (policy, log) := Policy.ofName name
    (some { config with policy }, log)
  | none => (none, [])

def set {V : Type} (format : Settings.Format V) : Settings.Section.Setter V SelectorConfig :=
  fun field value config => match field with
    | "refresh_period_ms" =>
      ((format.word64? value).map ({ config with refreshPeriod := · }), [])
    | "policy" => setPolicy (format.text? value) config
    | "primary" =>
      ((format.optional? format.text? value).map ({ config with primary := · }), [])
    | "candidates" => ((format.texts? value).map ({ config with candidates := · }), [])
    | "random_seed" =>
      ((format.optional? format.word64? value).map ({ config with randomSeed := · }), [])
    | _ => (none, [])

def schema : Settings.Schema SelectorConfig where
  what := "selector"
  fields := fields
  set := set
  defaults := {}
  validate := validate

def ofJson? (document : Json.Document) : Option SelectorConfig × List LogLine :=
  schema.ofJson? document

def toJson (config : SelectorConfig) : Json :=
  .record [
    ("refresh_period_ms", .ofWord64 config.refreshPeriod),
    ("policy", .ofText config.policy.name),
    ("primary", .ofOption .ofText config.primary),
    ("candidates", .ofList .ofText config.candidates),
    ("random_seed", .ofOption .ofWord64 config.randomSeed)]

end SelectorConfig

end NamespaceService
