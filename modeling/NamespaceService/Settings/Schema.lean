import NamespaceService.Settings.Yaml

namespace NamespaceService

inductive SettingsError
  | unreadableFile (path : String)
  | malformed (what : String)
  | invalid (reason : String)
deriving DecidableEq

def SettingsError.message : SettingsError → String
  | unreadableFile path => s!"Failed to read config file: {path}"
  | malformed what => s!"Failed to parse {what} configuration"
  | invalid reason => reason

namespace Settings

structure Schema (C : Type) where
  what : String
  fields : List String
  set : {V : Type} → Format V → Section.Setter V C
  defaults : C
  validate : C → Except String Unit

-- Where settings are loaded from: a file that is not there, or the text of one.
inductive Source
  | missing (path : String)
  | text (yaml : String)

namespace Schema

variable {C : Type} (schema : Schema C)

def ofJson? (document : Json.Document) : Option C × List LogLine :=
  (Section.ofJson schema.fields document).read schema.fields (schema.set json) schema.defaults

def ofYaml? (document : Yaml.Document) : Option C × List LogLine :=
  (Section.ofYaml document).read schema.fields (schema.set (yaml document)) schema.defaults

def check (config : C) : Except SettingsError C :=
  match schema.validate config with
  | .ok () => .ok config
  | .error reason => .error (.invalid reason)

def load : Source → Except SettingsError C × List LogLine
  | .missing path => (.error (.unreadableFile path), [])
  | .text yaml =>
    let (config, log) := schema.ofYaml? (.read yaml)
    match config with
    | some config => (schema.check config, log)
    | none => (.error (.malformed schema.what), log)

end Schema

end Settings

end NamespaceService
