import NamespaceService.Selector.Pick
import NamespaceService.Selector.Refresh

namespace NamespaceService

-- Refreshes when it is woken, or when it has waited long enough since its last refresh. Once told
-- to stop, it stops for good.
structure Worker where
  isRunning : Bool
  now : Nat
  -- When the current wait ends.
  deadline : Nat
deriving DecidableEq

-- The longest wait in milliseconds: thirty years of 365 days.
def longestWait : Nat :=
  30 * 365 * 24 * 60 * 60 * 1000

-- How long the worker waits between refreshes: the period, but never more than the longest wait.
def SelectorConfig.wait (config : SelectorConfig) : Nat :=
  min config.refreshPeriod.toNat longestWait

structure Service where
  selector : Selector
  worker : Worker

namespace Service

variable (v : Service)

def start (selector : Selector) : Service where
  selector := selector
  worker := { isRunning := true, now := 0, deadline := selector.config.wait }

def advance (milliseconds : Nat) : Service :=
  { v with worker := { v.worker with now := v.worker.now + milliseconds } }

-- One refresh of the worker, after which a new wait begins.
def refresh : Service :=
  let selector := match v.selector.refresh with
    | (.ok (), s) => s
    | (.error e, s) => s.note .warn s!"namenode list refresh failed: {e.message}"
  let deadline := v.worker.now + v.selector.config.wait
  { selector, worker := { v.worker with deadline } }

def refreshTimes : (count : Nat) → Service → Service
  | 0, v => v
  | count + 1, v => refreshTimes count v.refresh

-- Lets the worker run until it is idle. One refresh answers each wake that is awaited, or else the
-- end of a wait.
def settle : Service :=
  if !v.worker.isRunning then v
  else if 0 < v.selector.awaited then
    refreshTimes v.selector.awaited { v with selector := { v.selector with awaited := 0 } }
  else if v.worker.deadline ≤ v.worker.now then v.refresh
  else v

def stop : Service :=
  if v.worker.isRunning then
    { selector := v.selector.note .debug "namenode list refresher stopped"
      worker := { v.worker with isRunning := false } }
  else v

def close : Service :=
  let v := v.stop
  { v with selector := v.selector.close }

-- Drops the selector: the worker stops, and the selector's handles are let go.
def drop : Service :=
  let v := v.stop
  let s := v.selector
  { v with selector :=
      Selector.letGo (s.servers ++ s.blacklist) { s with servers := [], blacklist := [] } }

end Service

end NamespaceService
