import NamespaceService.Proofs.Json.Records
import NamespaceService.Proofs.Selector.Addresses
import NamespaceService.Proofs.Selector.Reconciliation

namespace NamespaceService

open Json

namespace Server

def fields : List String :=
  ["id", "hostname", "ip", "port"]

theorem isHeader_fields : IsHeader fields := by decide

theorem rereads : Rereads toJson ofJson? := by
  refine .record isHeader_fields (fun _ => rfl) (fun s => ?_) fun s => ?_
  · simp [rereads_word64.written, Written.text, Written.number]
  · simp [rereads_word64.read?_write, Ip.ofText?_text, word16?_ofNat]

end Server

namespace ServerList

variable {given : List Server} {s : Server}

theorem mem_distinct_iff : s ∈ distinct given ↔ given.find? (·.address = s.address) = some s := by
  induction given
  case nil => simp [distinct]
  case cons first rest ih =>
    rw [distinct, List.mem_cons, List.mem_filter, ih, List.find?_cons]
    by_cases hsame : first.address = s.address
    case pos => simp [Server.isSame, hsame, eq_comm]
    case neg =>
      have hne : s ≠ first := fun heq => hsame (heq ▸ rfl)
      simp [Server.isSame, hsame, hne]

theorem mem_ofServers_iff :
    s ∈ (ofServers given).servers ↔ given.find? (·.address = s.address) = some s := by
  rw [ofServers, List.mem_mergeSort, mem_distinct_iff]

theorem distinct_of_nodup (hnodup : (given.map Server.address).Nodup) : distinct given = given := by
  induction given
  case nil => rfl
  case cons first rest ih =>
    have ⟨hfirst, hrest⟩ := List.nodup_cons.mp hnodup
    rw [distinct, ih hrest, List.filter_eq_self.mpr]
    intro other hother
    have hne : first.address ≠ other.address := fun heq =>
      hfirst (heq ▸ List.mem_map_of_mem hother)
    simp [Server.isSame, hne]

-- Descriptions of different servers keep the order in which they were given.
theorem pairwise_idxOf_distinct (given : List Server) :
    (distinct given).Pairwise fun s t => given.idxOf s < given.idxOf t := by
  induction given
  case nil => exact .nil
  case cons first rest ih =>
    have hne {s} (hs : s ∈ (distinct rest).filter (!first.isSame ·)) : first ≠ s := by
      rintro rfl
      simp [Server.isSame] at hs
    rw [distinct, List.pairwise_cons]
    constructor
    · intro t ht
      rw [List.idxOf_cons_self, List.idxOf_cons_ne _ (hne ht)]
      exact Nat.succ_pos _
    · refine (ih.filter _).imp_of_mem fun hs ht hlt => ?_
      rw [List.idxOf_cons_ne _ (hne hs), List.idxOf_cons_ne _ (hne ht)]
      exact Nat.succ_lt_succ hlt

-- Sorting leaves the items of one id in their order.
theorem filter_mergeSort {α : Type} (id : α → UInt64) (l : List α) (i : UInt64) :
    (l.mergeSort fun x y => id x ≤ id y).filter (id · = i) = l.filter (id · = i) := by
  have hties : (l.filter (id · = i)).Pairwise fun x y => decide (id x ≤ id y) = true := by
    refine List.pairwise_of_forall_mem_list fun x hx y hy => ?_
    rw [List.mem_filter, decide_eq_true_eq] at hx hy
    rw [decide_eq_true_eq, hx.2, hy.2]
    exact UInt64.le_refl i
  have hsublist := (List.sublist_mergeSort (le_id_trans id) (le_id_total id) hties
    List.filter_sublist).filter (id · = i)
  rw [List.filter_filter, funext fun x => Bool.and_self (decide (id x = i))] at hsublist
  have hperm := (List.mergeSort_perm l fun x y => id x ≤ id y).filter (id · = i)
  exact (hsublist.eq_of_length hperm.length_eq.symm).symm

theorem pairwise_ofServers (given : List Server) : (ofServers given).servers.Pairwise fun s t =>
    s.id < t.id ∨ s.id = t.id ∧ given.idxOf s < given.idxOf t := by
  rw [List.pairwise_iff_forall_sublist]
  intro s t hsublist
  have hle := List.pairwise_iff_forall_sublist.mp (Proper.ofServers given).sorted hsublist
  refine (UInt64.lt_or_eq_of_le hle).imp id fun hid => ⟨hid, ?_⟩
  have hties := hsublist.filter (Server.id · = t.id)
  rw [ofServers, filter_mergeSort] at hties
  have hpair : [s, t].filter (Server.id · = t.id) = [s, t] := by simp [hid]
  rw [hpair] at hties
  exact List.pairwise_iff_forall_sublist.mp (pairwise_idxOf_distinct given)
    (hties.trans List.filter_sublist)

theorem ofServers_servers (given : List Server) :
    ofServers (ofServers given).servers = ofServers given := by
  have proper := Proper.ofServers given
  have hsorted : (ofServers given).servers.Pairwise fun s t => decide (s.id ≤ t.id) = true := by
    simpa using proper.sorted
  rw [ofServers, distinct_of_nodup proper.addresses, List.mergeSort_of_pairwise hsorted]

theorem ofJson?_toJson (given : List Server) :
    (parse? (ofServers given).toJson.print).bind ofJson? = some (ofServers given) := by
  have hwritten := Server.rereads.list.written (ofServers given).servers
  have hread := Server.rereads.list.read?_write (ofServers given).servers
  rw [toJson, parse?_print hwritten, Option.bind_some, ofJson?, hread, Option.map_some,
    ofServers_servers]

theorem find?_ofServers (given : List Server) (address : SocketAddress) :
    (ofServers given).find? address = given.find? (·.address = address) := by
  ext s
  constructor
  case mp =>
    intro hfind
    obtain ⟨hmem, rfl⟩ := mem_of_find? hfind
    exact mem_ofServers_iff.mp hmem
  case mpr =>
    intro hfind
    have haddress : s.address = address := by simpa using List.find?_some hfind
    subst haddress
    exact (Proper.ofServers given).find?_of_mem (mem_ofServers_iff.mpr hfind)

theorem leader?_eq_none_iff : (ofServers given).leader? = none ↔ given = [] := by
  rw [leader?, List.head?_eq_none_iff]
  constructor
  case mp =>
    intro hnil
    cases given
    case nil => rfl
    case cons first rest =>
      have hfirst : first ∈ (ofServers (first :: rest)).servers :=
        mem_ofServers_iff.mpr (List.find?_cons_of_pos (by simp))
      rw [hnil] at hfirst
      cases hfirst
  case mpr =>
    rintro rfl
    rw [ofServers, distinct, List.mergeSort_nil]

theorem leader?_least (h : (ofServers given).leader? = some s) :
    s ∈ (ofServers given).servers ∧ ∀ t ∈ (ofServers given).servers, s.id ≤ t.id := by
  obtain ⟨rest, hservers⟩ := List.head?_eq_some_iff.mp h
  have hsorted := (Proper.ofServers given).sorted
  rw [hservers] at hsorted ⊢
  refine ⟨List.mem_cons_self, fun t ht => ?_⟩
  obtain rfl | ht := List.mem_cons.mp ht
  · exact UInt64.le_refl _
  · exact (List.pairwise_cons.mp hsorted).1 t ht

-- What a list of descriptions becomes: which descriptions are kept and in which order, what is
-- looked up, which one leads, and that the list is made the same from itself and from its text.
theorem ofServers_laws (given : List Server) :
    (∀ s, s ∈ (ofServers given).servers ↔ given.find? (·.address = s.address) = some s) ∧
    (ofServers given).servers.Pairwise (fun s t =>
      s.id < t.id ∨ s.id = t.id ∧ given.idxOf s < given.idxOf t) ∧
    (∀ address, (ofServers given).find? address = given.find? (·.address = address)) ∧
    (∀ address, (ofServers given).find? address = none ↔ address ∉ given.map Server.address) ∧
    ((ofServers given).leader? = none ↔ given = []) ∧
    (∀ s, (ofServers given).leader? = some s →
      s ∈ (ofServers given).servers ∧ ∀ t ∈ (ofServers given).servers, s.id ≤ t.id) ∧
    ofServers (ofServers given).servers = ofServers given ∧
    (parse? (ofServers given).toJson.print).bind ofJson? = some (ofServers given) := by
  refine ⟨fun _ => mem_ofServers_iff, pairwise_ofServers given, find?_ofServers given, ?_,
    leader?_eq_none_iff, fun _ => leader?_least, ofServers_servers given, ofJson?_toJson given⟩
  intro address
  rw [find?_ofServers, List.find?_eq_none]
  simp [eq_comm]

end ServerList

end NamespaceService
