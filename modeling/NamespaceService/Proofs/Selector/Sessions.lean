import NamespaceService.Proofs.Selector.Eligibility
import NamespaceService.Session.Selector

namespace NamespaceService

namespace Selector

variable {s : Selector} {h : Handle} {slot : String} {id : UInt64}

theorem Reachable.note (reachable : Reachable s) (level : Level) (message : String) :
    Reachable (s.note level message) :=
  reachable.take (.worker s.awaited [{ level, message }])

theorem mem_of_slot? (hslot : s.slot? slot = some h) : h ∈ s.handles := by
  obtain ⟨before, after, hheld, -⟩ := List.lookup_eq_some_iff.mp hslot
  exact List.mem_append_right _ (by simp [hheld])

theorem mem_of_connected? (hconnected : s.connected? id = some h) : h ∈ s.handles :=
  List.mem_append_left _ (List.mem_append_left _ (List.mem_of_find?_eq_some hconnected))

theorem mem_of_next (hnext : s.next.1 = .ok h) : h ∈ s.next.2.handles := by
  obtain ⟨_, _, _, _, hsame⟩ := s.next_eq
  rw [hsame]
  exact List.mem_append_left _ (List.mem_append_left _ (eligible_of_next hnext).1)

theorem Reachable.hold (reachable : Reachable s) (hh : h ∈ s.handles) (slot : String) :
    Reachable (s.hold slot h) := by
  simpa [Selector.take, hh] using reachable.take (.hold slot h)

theorem Reachable.blacklistServer (reachable : Reachable s) (hh : h ∈ s.handles) :
    Reachable (s.blacklistServer h) := by
  simpa [Selector.take, hh] using reachable.take (.blacklist h)

end Selector

namespace Service

variable {v : Service}

theorem refresh_reachable (reachable : v.selector.Reachable) : v.refresh.selector.Reachable := by
  have hrefresh := reachable.take .refresh
  rw [Service.refresh]
  dsimp only
  split
  case h_1 hok =>
    rwa [Selector.take, hok] at hrefresh
  case h_2 herror =>
    rw [Selector.take, herror] at hrefresh
    exact hrefresh.note ..

theorem refreshTimes_reachable (count : Nat) (reachable : v.selector.Reachable) :
    (refreshTimes count v).selector.Reachable := by
  induction count generalizing v
  case zero => exact reachable
  case succ count ih => exact ih (refresh_reachable reachable)

theorem settle_reachable (reachable : v.selector.Reachable) : v.settle.selector.Reachable := by
  rw [settle]
  split
  case isTrue => exact reachable
  case isFalse =>
    split
    case isTrue =>
      refine refreshTimes_reachable _ ?_
      simpa [Selector.take] using reachable.take (.worker 0 [])
    case isFalse =>
      split
      case isTrue => exact refresh_reachable reachable
      case isFalse => exact reachable

theorem stop_reachable (reachable : v.selector.Reachable) : v.stop.selector.Reachable := by
  rw [stop]
  split
  case isTrue => exact reachable.note ..
  case isFalse => exact reachable

end Service

namespace Session.SelectorSession

variable {s : SelectorSession}

theorem mem_of_named? {name : HandleName} {h : Handle} (hnamed : s.named? name = some h) :
    h ∈ s.selector.handles := by
  rw [named?, Option.or_eq_some_iff] at hnamed
  obtain hslot | ⟨-, hid⟩ := hnamed
  · obtain ⟨slot, -, hslot⟩ := Option.bind_eq_some_iff.mp hslot
    exact Selector.mem_of_slot? hslot
  · obtain ⟨id, -, hid⟩ := Option.bind_eq_some_iff.mp hid
    exact Selector.mem_of_connected? hid

theorem onHandle_reachable {act : Handle → SelectorAnswer × SelectorSession} {name : HandleName}
    (reachable : s.selector.Reachable)
    (h : ∀ h ∈ s.selector.handles, (act h).2.selector.Reachable) :
    (s.onHandle name act).2.selector.Reachable := by
  rw [onHandle]
  split
  case h_1 k hnamed => exact h k (mem_of_named? hnamed)
  case h_2 => exact reachable

theorem sample_reachable (picks : Nat) (reachable : s.selector.Reachable) :
    (sample picks s).2.selector.Reachable := by
  induction picks generalizing s
  case zero => exact reachable
  case succ picks ih =>
    have hnext := reachable.take .next
    rw [sample]
    split
    case h_1 h selector hok =>
      rw [Selector.take, hok] at hnext
      exact ih (s := s.withSelector selector) hnext
    case h_2 e selector herror =>
      rw [Selector.take, herror] at hnext
      exact ih (s := { s.withSelector selector with sampleWakes := s.sampleWakes + 1 }) hnext

theorem perform_reachable (reachable : s.selector.Reachable) (call : SelectorCall) :
    (s.perform call).2.selector.Reachable := by
  cases call
  case next slot =>
    have hnext := reachable.take .next
    rw [perform]
    split
    case h_1 h selector hok =>
      have hh := Selector.mem_of_next (congrArg Prod.fst hok)
      rw [Selector.take, hok] at hnext
      rw [hok] at hh
      cases slot
      case none => exact hnext
      case some slot => exact hnext.hold hh slot
    case h_2 herror => rwa [Selector.take, herror] at hnext
  case sample picks => exact sample_reachable picks reachable
  case all =>
    have hall := reachable.take .all
    rw [perform]
    split
    case h_1 hok => rwa [Selector.take, hok] at hall
    case h_2 herror => rwa [Selector.take, herror] at hall
  case leader =>
    have hleader := reachable.take .leader
    rw [perform]
    split
    case h_1 hok => rwa [Selector.take, hok] at hleader
    case h_2 herror => rwa [Selector.take, herror] at hleader
  case blacklist name => exact onHandle_reachable reachable fun h hh => reachable.blacklistServer hh
  case isBlacklisted name => exact onHandle_reachable reachable fun h hh => reachable
  case refresh =>
    have hrefresh := reachable.take .refresh
    rw [perform]
    split
    case h_1 hok => rwa [Selector.take, hok] at hrefresh
    case h_2 herror => rwa [Selector.take, herror] at hrefresh
  case describe | policy => exact reachable
  case stop => exact Service.stop_reachable reachable
  case close => exact (Service.stop_reachable reachable).take .close

theorem take_reachable (reachable : s.selector.Reachable) (step : SelectorStep) :
    (s.take step).2.selector.Reachable := by
  cases step
  case call call =>
    rw [take]
    split
    case isTrue => exact reachable
    case isFalse => exact perform_reachable reachable call
  case hold id slot => exact onHandle_reachable reachable fun h hh => reachable.hold hh slot
  case release slot => exact reachable.take (.release slot)
  case inspect name => exact onHandle_reachable reachable fun h hh => reachable
  case compare first second =>
    rw [take]
    split <;> exact reachable
  case setMembers members =>
    cases members
    case none => exact reachable
    case some members =>
      exact reachable.take (.cluster s.selector.cluster.isDown fun _ => members)
  case setDown endpoints down =>
    have hsame (c : Cluster) : endpoints.foldl (·.setDown · down) c =
        { c with isDown := (endpoints.foldl (·.setDown · down) c).isDown } := by
      induction endpoints generalizing c
      case nil => rfl
      case cons endpoint rest ih => exact ih (c.setDown endpoint down)
    rw [take, hsame]
    exact reachable.take (.cluster _ s.selector.cluster.members)
  case tick milliseconds => exact reachable
  case drop =>
    rw [take]
    split
    case isTrue => exact reachable
    case isFalse => exact (Service.stop_reachable reachable).take .drop

-- Calls hand in handles that the selector or a caller has, and the worker refreshes the selector.
theorem run_reachable (reachable : s.selector.Reachable) (steps : List SelectorStep) :
    (s.run steps).2.selector.Reachable := by
  induction steps generalizing s
  case nil => exact reachable
  case cons step steps ih =>
    exact ih (Service.settle_reachable (take_reachable reachable step))

theorem start_reachable {config : SelectorConfig} {cluster : Cluster} {background : Bool}
    (fresh : cluster.history = []) (h : start config cluster background = .ok s) :
    s.selector.Reachable := by
  rw [start] at h
  split at h
  case h_1 => cases h
  case h_2 selector hstart =>
    cases h
    have reachable : selector.Reachable := .start fresh hstart
    cases background
    case true => exact Service.settle_reachable (v := .start selector) reachable
    case false => exact Service.stop_reachable (v := .start selector) reachable

end Session.SelectorSession

end NamespaceService
