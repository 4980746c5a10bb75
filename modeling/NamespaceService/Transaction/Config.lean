import NamespaceService.Settings.Schema

namespace NamespaceService

@[ext]
structure TransactionConfig where
  -- Attempts at a unit of work before giving up.
  retryCount : UInt32 := 5
  -- Lock rows before each unit of work.
  rowLevelLock : Bool := true
  -- Honour the server-wide lock that a unit of work asks for.
  coarseLock : Bool := false
  -- Named in log lines.
  serverId : Option UInt64 := none
deriving DecidableEq, Inhabited

namespace TransactionConfig

def validate (config : TransactionConfig) : Except String Unit :=
  if config.retryCount = 0 then .error "retry_count must be greater than 0" else .ok ()

def attempts (config : TransactionConfig) : Nat :=
  max 1 config.retryCount.toNat

-- The name under which a unit of work appears in the log.
def correlation (config : TransactionConfig) (operation : String) : String :=
  match config.serverId with
  | some id => s!"NN ({id}) {operation}"
  | none => operation

def fields : List String :=
  ["retry_count", "row_level_lock", "coarse_lock", "server_id"]

def set {V : Type} (format : Settings.Format V) : Settings.Section.Setter V TransactionConfig :=
  fun field value config =>
    let updated := match field with
      | "retry_count" => (format.word32? value).map ({ config with retryCount := · })
      | "row_level_lock" => (format.bool? value).map ({ config with rowLevelLock := · })
      | "coarse_lock" => (format.bool? value).map ({ config with coarseLock := · })
      | "server_id" =>
        (format.optional? format.word64? value).map ({ config with serverId := · })
      | _ => none
    (updated, [])

def schema : Settings.Schema TransactionConfig where
  what := "transaction"
  fields := fields
  set := set
  defaults := {}
  validate := validate

def ofJson? (document : Json.Document) : Option TransactionConfig :=
  (schema.ofJson? document).1

def toJson (config : TransactionConfig) : Json :=
  .record [
    ("retry_count", .ofNat config.retryCount.toNat),
    ("row_level_lock", .bool config.rowLevelLock),
    ("coarse_lock", .bool config.coarseLock),
    ("server_id", .ofOption .ofWord64 config.serverId)]

end TransactionConfig

end NamespaceService
