import Mathlib.Algebra.Order.BigOperators.Group.Finset
import Mathlib.Data.Multiset.Count
import NamespaceService.Proofs.Transaction.Positions
import NamespaceService.Selector.Basic

namespace NamespaceService

-- `addresses` has the address of each kept connection by its number, and `gone` the numbers of
-- those that were closed.
inductive Ledger : List ClusterEvent → List SocketAddress → List ConnectionId → Prop
  | empty : Ledger [] [] []
  | asked {events : List ClusterEvent} {addresses : List SocketAddress} {gone : List ConnectionId}
      (endpoint : String) (ledger : Ledger events addresses gone) :
      Ledger (events ++ [.asked endpoint]) addresses gone
  | refused {events : List ClusterEvent} {addresses : List SocketAddress} {gone : List ConnectionId}
      (endpoint : String) (ledger : Ledger events addresses gone) :
      Ledger (events ++ [.refused endpoint]) addresses gone
  | passing {events : List ClusterEvent} {addresses : List SocketAddress} {gone : List ConnectionId}
      (endpoint : String) (ledger : Ledger events addresses gone) :
      Ledger (events ++ [.connected endpoint, .asked endpoint, .closed endpoint]) addresses gone
  | opened {events : List ClusterEvent} {addresses : List SocketAddress} {gone : List ConnectionId}
      (address : SocketAddress) (ledger : Ledger events addresses gone) :
      Ledger (events ++ [.connected address.text]) (addresses ++ [address]) gone
  | closed {events : List ClusterEvent} {addresses : List SocketAddress} {gone : List ConnectionId}
      {address : SocketAddress} {c : ConnectionId} (known : addresses[c]? = some address)
      (fresh : c ∉ gone) (ledger : Ledger events addresses gone) :
      Ledger (events ++ [.closed address.text]) addresses (gone ++ [c])

namespace ClusterEvent

@[simp]
def connectedTo? : ClusterEvent → Option String
  | connected endpoint => some endpoint
  | refused _ | asked _ | closed _ => none

@[simp]
def closedAt? : ClusterEvent → Option String
  | closed endpoint => some endpoint
  | connected _ | refused _ | asked _ => none

end ClusterEvent

namespace Ledger

open ClusterEvent

variable {events : List ClusterEvent} {addresses : List SocketAddress} {gone : List ConnectionId}

theorem nodup (ledger : Ledger events addresses gone) : gone.Nodup := by
  induction ledger
  case empty => exact .nil
  case closed hfresh _ ih =>
    rw [← List.concat_eq_append]
    exact (List.nodup_concat ..).mpr ⟨hfresh, ih⟩
  all_goals assumption

theorem lt (ledger : Ledger events addresses gone) : ∀ c ∈ gone, c < addresses.length := by
  induction ledger
  case empty => simp
  case opened ih =>
    intro c hc
    simpa using Nat.lt_succ_of_lt (ih c hc)
  case closed hknown _ _ ih =>
    intro c hc
    obtain hc | rfl := List.mem_append.mp hc |>.imp_right List.mem_singleton.mp
    · exact ih c hc
    · exact (List.getElem?_eq_some_iff.mp hknown).1
  all_goals assumption

theorem connected_mem (ledger : Ledger events addresses gone) :
    ∀ address ∈ addresses, .connected address.text ∈ events := by
  induction ledger
  case empty => simp
  case opened ih =>
    intro a ha
    obtain ha | rfl := List.mem_append.mp ha |>.imp_right List.mem_singleton.mp
    · exact List.mem_append_left _ (ih a ha)
    · exact List.mem_append_right _ List.mem_cons_self
  case asked ih | refused ih | passing ih | closed ih =>
    exact fun a ha => List.mem_append_left _ (ih a ha)

-- What is closed has been connected to.
theorem closedAt_subset (ledger : Ledger events addresses gone) :
    events.filterMap closedAt? ⊆ events.filterMap connectedTo? := by
  induction ledger
  case empty => simp
  case closed hknown _ hledger ih =>
    have hmem := hledger.connected_mem _ (List.mem_of_getElem? hknown)
    have hconnected : _ ∈ _ := List.mem_filterMap.mpr ⟨_, hmem, connectedTo?.eq_1 _⟩
    simp [List.filterMap_cons, ih, hconnected]
  case asked ih | refused ih => simpa [List.filterMap_cons] using ih
  case opened ih | passing ih =>
    simpa [List.filterMap_cons] using List.subset_append_of_subset_left _ ih

-- Apart from those that are still open, as many connections were closed as were opened.
theorem length_eq (ledger : Ledger events addresses gone) :
    (events.filterMap connectedTo?).length + gone.length =
      (events.filterMap closedAt?).length + addresses.length := by
  induction ledger <;> simp_all [List.filterMap_cons] <;> omega

end Ledger

namespace Cluster

open ClusterEvent

variable {c : Cluster} {addresses : List SocketAddress} {gone : List ConnectionId} {e : String}

theorem mem_endpoints_iff : e ∈ c.endpoints ↔ .connected e ∈ c.history := by
  rw [endpoints, SortedBy.mem_ofList_iff, List.mem_filterMap]
  constructor
  case mp =>
    rintro ⟨event, hmem, heq⟩
    cases event <;> cases heq
    exact hmem
  case mpr => exact fun h => ⟨_, h, rfl⟩

theorem endpoints_nodup (c : Cluster) : c.endpoints.Nodup :=
  (SortedBy.sorted _).imp Ranked.Before.ne

theorem connects_eq (e : String) : c.connects e = (c.history.filterMap connectedTo?).count e := by
  rw [connects, List.count_filterMap, List.count_eq_countP]
  refine List.countP_congr fun event _ => ?_
  cases event <;> simp

theorem closes_eq (e : String) : c.closes e = (c.history.filterMap closedAt?).count e := by
  rw [closes, List.count_filterMap, List.count_eq_countP]
  refine List.countP_congr fun event _ => ?_
  cases event <;> simp

theorem foldl_count_eq_length {l l' : List String} (hl : l.Nodup) (h : l' ⊆ l) :
    (l.map fun e => l'.count e).foldl (· + ·) 0 = l'.length := by
  rw [← List.sum_eq_foldl]
  have hcount := Multiset.sum_count_eq_card (s := l.toFinset) (m := (l' : Multiset String))
    fun e he => List.mem_toFinset.mpr (h he)
  simpa [List.sum_toFinset _ hl] using hcount

-- The connections that are open are those that were kept and are not gone.
theorem openConnections_eq (ledger : Ledger c.history addresses gone) :
    c.openConnections = addresses.length - gone.length := by
  have hconnected : c.history.filterMap connectedTo? ⊆ c.endpoints := fun e he => by
    obtain ⟨event, hmem, heq⟩ := List.mem_filterMap.mp he
    cases event <;> cases heq
    exact mem_endpoints_iff.mpr hmem
  have hclosed : c.history.filterMap closedAt? ⊆ c.endpoints := fun e he =>
    hconnected (ledger.closedAt_subset he)
  rw [openConnections, funext connects_eq, funext closes_eq,
    foldl_count_eq_length c.endpoints_nodup hconnected,
    foldl_count_eq_length c.endpoints_nodup hclosed]
  have := ledger.length_eq
  omega

end Cluster

end NamespaceService
