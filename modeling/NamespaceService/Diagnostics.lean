import NamespaceService.Log
import NamespaceService.Text.Blank

namespace NamespaceService

namespace Level

def severity : Level → Nat
  | debug => 0
  | info => 1
  | warn => 2
  | error => 3

def name : Level → String
  | debug => "debug"
  | info => "info"
  | warn => "warn"
  | error => "error"

end Level

namespace Diagnostics

-- Reads a threshold; without one nothing is logged. An unknown setting is given back lowered and
-- without the space around it.
def parseThreshold (value : String) : Except String (Option Level) :=
  match Text.lowerAscii (Text.trim value) with
  | "" | "off" => .ok none
  | "error" => .ok (some .error)
  | "warn" => .ok (some .warn)
  | "info" => .ok (some .info)
  | "debug" => .ok (some .debug)
  | other => .error other

structure Startup where
  threshold : Option Level
  warned : Bool
deriving DecidableEq

-- A missing setting switches the log off.
def start (value : Option String) : Startup :=
  match parseThreshold (value.getD "off") with
  | .ok threshold => ⟨threshold, false⟩
  | .error _ => ⟨some .info, true⟩

def Startup.shows (s : Startup) (level : Level) : Bool :=
  match s.threshold with
  | some threshold => threshold.severity ≤ level.severity
  | none => false

end Diagnostics

end NamespaceService
