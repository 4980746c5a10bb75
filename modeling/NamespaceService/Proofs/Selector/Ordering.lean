import Mathlib.Data.List.Permutation
import NamespaceService.Proofs.Selector.Runs

namespace NamespaceService

section

variable {α : Type} {r : α → α → Prop} {le : α → α → Bool} {l l' : List α} {x y : α}

theorem pairwise_iff_idxOf [DecidableEq α] (hnodup : l.Nodup) :
    l.Pairwise r ↔ ∀ x ∈ l, ∀ y ∈ l, l.idxOf x < l.idxOf y → r x y := by
  rw [List.pairwise_iff_getElem]
  constructor
  case mp =>
    intro h x hx y hy hlt
    simpa using h _ _ (List.idxOf_lt_length_of_mem hx) (List.idxOf_lt_length_of_mem hy) hlt
  case mpr =>
    intro h i j hi hj hlt
    refine h _ (List.getElem_mem hi) _ (List.getElem_mem hj) ?_
    rwa [hnodup.idxOf_getElem, hnodup.idxOf_getElem]

theorem not_sublist_swap (hnodup : l.Nodup) (h : [x, y].Sublist l) : ¬[y, x].Sublist l := by
  classical
  intro hswap
  have hpairwise : l.Pairwise fun x y => l.idxOf x < l.idxOf y :=
    (pairwise_iff_idxOf hnodup).mpr fun _ _ _ _ hlt => hlt
  rw [List.pairwise_iff_forall_sublist] at hpairwise
  exact Nat.lt_asymm (hpairwise h) (hpairwise hswap)

theorem sublist_or_sublist_swap (hx : x ∈ l) (hy : y ∈ l) (hne : x ≠ y) :
    [x, y].Sublist l ∨ [y, x].Sublist l := by
  have : Std.Symm fun x y => [x, y].Sublist l ∨ [y, x].Sublist l := ⟨fun _ _ => Or.symm⟩
  have hpairwise : l.Pairwise fun x y => [x, y].Sublist l ∨ [y, x].Sublist l :=
    List.pairwise_iff_forall_sublist.mpr .inl
  exact hpairwise.forall hx hy hne

-- Sorting leaves those that rank alike in the order they had.
theorem pairwise_mergeSort_of_pairwise
    (trans : ∀ x y z, le x y = true → le y z = true → le x z = true)
    (total : ∀ x y, (le x y || le y x) = true) (hnodup : l.Nodup) (h : l.Pairwise r) :
    (l.mergeSort le).Pairwise fun x y => le x y = true ∧ (le y x = true → r x y) := by
  have hperm := List.mergeSort_perm l le
  rw [List.pairwise_iff_forall_sublist]
  intro x y hsub
  refine ⟨List.pairwise_iff_forall_sublist.mp (List.pairwise_mergeSort trans total l) hsub,
    fun hle => ?_⟩
  have hsorted := hperm.nodup_iff.mpr hnodup
  have hmem : x ∈ l ∧ y ∈ l := by simpa [hperm.mem_iff] using hsub.subset
  have hne : x ≠ y := by simpa using hsub.nodup hsorted
  obtain hsame | hswap := sublist_or_sublist_swap hmem.1 hmem.2 hne
  · exact List.pairwise_iff_forall_sublist.mp h hsame
  · exact absurd (List.pair_sublist_mergeSort trans total hle hswap) (not_sublist_swap hsorted hsub)

end

namespace ServerList

variable {list : ServerList} {place : Server → Nat} {x y : Server} {l m : List Server}

theorem Proper.map_address_eq_iff (proper : list.Proper) (hl : l ⊆ list.servers)
    (hm : m ⊆ list.servers) : l.map Server.address = m.map Server.address ↔ l = m := by
  have hfind {l : List Server} (hl : l ⊆ list.servers) :
      (l.map Server.address).filterMap list.find? = l := by
    rw [List.filterMap_map]
    exact (List.filterMap_congr fun x hx => proper.find?_of_mem (hl hx)).trans List.filterMap_some
  refine ⟨fun heq => ?_, fun heq => heq ▸ rfl⟩
  rw [← hfind hl, heq, hfind hm]

-- By id, then by place, and then as in the list.
def Precedes (list : ServerList) (place : Server → Nat) (x y : Server) : Prop :=
  x.id ≤ y.id ∧ (x.id = y.id →
    place x < place y ∨ place x = place y ∧ list.servers.idxOf x ≤ list.servers.idxOf y)

theorem Proper.nodup (proper : list.Proper) : list.servers.Nodup :=
  .of_map _ proper.addresses

theorem Precedes.antisymm (hx : x ∈ list.servers) (h : list.Precedes place x y)
    (h' : list.Precedes place y x) : x = y := by
  have hid : x.id = y.id := UInt64.le_antisymm h.1 h'.1
  have hxy := h.2 hid
  have hyx := h'.2 hid.symm
  exact (List.idxOf_inj hx).mp (by omega)

-- The list itself is arranged as if all had the same place.
theorem Proper.precedes (proper : list.Proper) :
    list.servers.Pairwise (list.Precedes fun _ => 0) := by
  have hpositions : list.servers.Pairwise fun x y => list.servers.idxOf x < list.servers.idxOf y :=
    (pairwise_iff_idxOf proper.nodup).mpr fun _ _ _ _ hlt => hlt
  exact (proper.sorted.and hpositions).imp fun h => ⟨h.1, fun _ => .inr ⟨rfl, h.2.le⟩⟩

-- Two arrangements are the same if servers with one id have like places.
theorem Proper.eq_iff (proper : list.Proper) {place' : Server → Nat} (hl : l.Perm list.servers)
    (hm : m.Perm list.servers) (hplace : l.Pairwise (list.Precedes place))
    (hplace' : m.Pairwise (list.Precedes place')) :
    l = m ↔ list.servers.Pairwise fun x y =>
      x.id = y.id → (place x ≤ place y ↔ place' x ≤ place' y) := by
  rw [List.pairwise_iff_forall_sublist] at hplace hplace'
  rw [pairwise_iff_idxOf proper.nodup]
  constructor
  case mp =>
    rintro rfl x hx y hy hlt hid
    have hne : x ≠ y := fun heq => by simp [heq] at hlt
    obtain hsame | hswap := sublist_or_sublist_swap (hl.mem_iff.mpr hx) (hl.mem_iff.mpr hy) hne
    case inl =>
      have := (hplace hsame).2 hid
      have := (hplace' hsame).2 hid
      omega
    case inr =>
      have := (hplace hswap).2 hid.symm
      have := (hplace' hswap).2 hid.symm
      omega
  case mpr =>
    intro halike
    have hsame : m.Pairwise (list.Precedes place) := by
      rw [List.pairwise_iff_forall_sublist]
      intro x y hsub
      have hmem : x ∈ list.servers ∧ y ∈ list.servers := by simpa [hm.mem_iff] using hsub.subset
      obtain ⟨hle, htie⟩ := hplace' hsub
      refine ⟨hle, fun hid => ?_⟩
      have hxy := halike x hmem.1 y hmem.2
      have hyx := halike y hmem.2 x hmem.1
      have heq : list.servers.idxOf x = list.servers.idxOf y → x = y := (List.idxOf_inj hmem.1).mp
      grind
    exact (hl.trans hm.symm).eq_of_pairwise (fun x y hx _ => Precedes.antisymm (hl.mem_iff.mp hx))
      (List.pairwise_iff_forall_sublist.mpr hplace) hsame

-- The leader of the list comes first if it is at least level with all that have its id.
theorem Proper.head?_eq_iff (proper : list.Proper) {first : Server} (hl : l.Perm list.servers)
    (hplace : l.Pairwise (list.Precedes place)) (hfirst : list.leader? = some first) :
    l.head? = some first ↔ ∀ x ∈ list.servers, x.id = first.id → place first ≤ place x := by
  obtain ⟨rest, hservers⟩ := List.head?_eq_some_iff.mp hfirst
  cases l
  case nil => simp [← hl.nil_eq] at hservers
  case cons x others =>
    rw [List.head?_cons, Option.some_inj]
    obtain ⟨hothers, -⟩ := List.pairwise_cons.mp hplace
    constructor
    case mp =>
      rintro rfl y hy hid
      obtain rfl | hy := List.mem_cons.mp (hl.mem_iff.mpr hy)
      · exact le_rfl
      · have := (hothers y hy).2 hid.symm
        omega
    case mpr =>
      intro hlevel
      have hmem : x ∈ list.servers := hl.mem_iff.mp List.mem_cons_self
      have hfirstMem : first ∈ list.servers := by simp [hservers]
      have hleast : ∀ y ∈ list.servers, first.id ≤ y.id := by
        have hsorted := proper.sorted
        rw [hservers] at hsorted ⊢
        simpa using (List.pairwise_cons.mp hsorted).1
      obtain heq | hlater := List.mem_cons.mp (hl.mem_iff.mpr hfirstMem)
      · exact heq.symm
      · refine Precedes.antisymm hmem (hothers first hlater) ⟨?_, fun hid => ?_⟩
        · exact hleast x hmem
        · have := hlevel x hmem hid.symm
          have : list.servers.idxOf first = 0 := by simp [hservers]
          omega

end ServerList

namespace Selector

open ServerList

variable {s t : Selector} {list : ServerList}

-- Where a server was listed; new ones come after all others.
def place (s : Selector) (server : Server) : Nat :=
  (s.servers.map Handle.address).idxOf server.address

-- All servers of the list are connected to, or can be.
def Reaches (s : Selector) (list : ServerList) : Prop :=
  ∀ server ∈ list.servers, server.address ∈ s.servers.map Handle.address ∨
    ¬s.cluster.isDown server.endpoint

theorem taken_servers_perm (proper : list.Proper) (hdistinct : (s.servers.map Handle.address).Nodup)
    (hreaches : s.Reaches list) : ((taken list s).map Handle.server).Perm list.servers := by
  have hnodup : ((taken list s).map Handle.server).Nodup := by
    refine .of_map Server.address ?_
    rw [List.map_map]
    exact taken_nodup proper hdistinct
  refine (List.perm_ext_iff_of_nodup hnodup proper.nodup).mpr fun server => ?_
  constructor
  case mp =>
    intro hmem
    obtain ⟨k, hk, rfl⟩ := List.mem_map.mp hmem
    exact (mem_of_find? (find?_of_mem_taken proper hk)).1
  case mpr =>
    intro hmem
    obtain ⟨k, hk, haddress⟩ := List.mem_map.mp
      (mem_address_taken_iff.mpr ⟨List.mem_map_of_mem hmem, hreaches server hmem⟩)
    have hfound := find?_of_mem_taken proper hk
    rw [haddress, proper.find?_of_mem hmem] at hfound
    exact List.mem_map.mpr ⟨k, hk, (Option.some_inj.mp hfound).symm⟩

theorem place_of_not_mem {server : Server} (h : server.address ∉ s.servers.map Handle.address) :
    s.place server = s.servers.length := by
  rw [place, List.idxOf_eq_length_iff.mpr h, List.length_map]

theorem place_lt_of_mem {server : Server} (h : server.address ∈ s.servers.map Handle.address) :
    s.place server < s.servers.length := by
  simpa [place] using List.idxOf_lt_length_of_mem h

-- Before they are sorted, the handles stand by place, and the new ones as in the list.
theorem ordered_kept_openedFrom (proper : list.Proper)
    (hdistinct : (s.servers.map Handle.address).Nodup) :
    (kept list s.servers ++ openedFrom s.opened (arrivals list s)).Pairwise fun h k =>
      s.place h.server < s.place k.server ∨ s.place h.server = s.place k.server ∧
        list.servers.idxOf h.server ≤ list.servers.idxOf k.server := by
  have hplace : ∀ k ∈ openedFrom s.opened (arrivals list s),
      s.place k.server = s.servers.length := fun k hk => by
    have hserver := List.mem_of_getElem? (mem_openedFrom_iff.mp hk).2
    exact place_of_not_mem (mem_arrivals_iff.mp hserver).2.1
  rw [List.pairwise_append]
  refine ⟨?_, ?_, fun h hh k hk => .inl ?_⟩
  · have hpositions : (s.servers.map Handle.address).Pairwise fun a b =>
        (s.servers.map Handle.address).idxOf a < (s.servers.map Handle.address).idxOf b :=
      (pairwise_iff_idxOf hdistinct).mpr fun _ _ _ _ hlt => hlt
    rw [List.pairwise_map] at hpositions
    rw [kept, List.pairwise_filterMap]
    refine hpositions.imp fun {h k} hlt h' hh' k' hk' => .inl ?_
    obtain ⟨server, hserver, rfl⟩ := Option.map_eq_some_iff.mp hh'
    obtain ⟨server', hserver', rfl⟩ := Option.map_eq_some_iff.mp hk'
    rwa [place, place, (mem_of_find? hserver).2, (mem_of_find? hserver').2]
  · have hpositions : list.servers.Pairwise fun x y =>
        list.servers.idxOf x < list.servers.idxOf y :=
      (pairwise_iff_idxOf proper.nodup).mpr fun _ _ _ _ hlt => hlt
    have hnew := hpositions.sublist (arrivals_sublist list s)
    rw [← map_server_openedFrom s.opened (arrivals list s), List.pairwise_map] at hnew
    exact hnew.imp_of_mem fun hh hk hlt => .inr ⟨(hplace _ hh).trans (hplace _ hk).symm, hlt.le⟩
  · rw [hplace k hk]
    obtain ⟨h', hh', hserver, -⟩ := mem_kept_iff.mp hh
    exact place_lt_of_mem ((mem_of_find? hserver).2 ▸ List.mem_map_of_mem hh')

theorem ordered_taken (proper : list.Proper) (hdistinct : (s.servers.map Handle.address).Nodup) :
    ((taken list s).map Handle.server).Pairwise (list.Precedes s.place) := by
  have hnodup : (kept list s.servers ++ openedFrom s.opened (arrivals list s)).Nodup :=
    (taken_perm list s).nodup_iff.mp (.of_map _ (taken_nodup proper hdistinct))
  have hordered := pairwise_mergeSort_of_pairwise (le_id_trans fun h : Handle => h.server.id)
    (le_id_total _) hnodup (ordered_kept_openedFrom proper hdistinct)
  rw [List.pairwise_map]
  refine hordered.imp fun h => ⟨of_decide_eq_true h.1, fun hid => h.2 ?_⟩
  simp [hid]

theorem refresh_servers_eq (hopen : s.closed = false) (hlist : s.membership? = some list) :
    s.refresh.2.servers = taken list s := by
  obtain ⟨lines, hrefresh⟩ := refresh_eq hopen
  obtain ⟨lines', hreconcile⟩ := reconcile_eq list
    (s.recording (Informant.conversation s.cluster s.informants) lines)
  rw [hrefresh, hlist]
  exact congrArg Selector.servers hreconcile

theorem refresh_allServers_eq (hopen : s.closed = false) (hlist : s.membership? = some list)
    (hne : taken list s ≠ []) : s.refresh.2.allServers.1 = .ok (taken list s) := by
  rw [allServers, refresh_servers_eq hopen hlist, if_neg (by simpa using hne)]

theorem refresh_leader_eq {leader : Handle} (hopen : s.closed = false)
    (hlist : s.membership? = some list) (hhead : (taken list s).head? = some leader) :
    s.refresh.2.leader.1 = .ok leader := by
  obtain ⟨rest, hrest⟩ := List.head?_eq_some_iff.mp hhead
  rw [Selector.leader, refresh_servers_eq hopen hlist, hrest]

-- Two selectors that have taken over one list list it alike if they had those of its servers that
-- share an id in the same order, and as the list does if that is the order of the list.
theorem refresh_order_iff (hs : Reachable s) (ht : Reachable t) (hsopen : s.closed = false)
    (htopen : t.closed = false) (hslist : s.membership? = some list)
    (htlist : t.membership? = some list) (hsreaches : s.Reaches list) (htreaches : t.Reaches list) :
    ∃ l m, s.refresh.2.allServers.1 = .ok l ∧ t.refresh.2.allServers.1 = .ok m ∧
      (l.map Handle.address = list.servers.map Server.address ↔
        list.servers.Pairwise fun x y => x.id = y.id → s.place x ≤ s.place y) ∧
      (l.map Handle.address = m.map Handle.address ↔
        list.servers.Pairwise fun x y =>
          x.id = y.id → (s.place x ≤ s.place y ↔ t.place x ≤ t.place y)) ∧
      ∃ first leader, list.leader? = some first ∧ s.refresh.2.leader.1 = .ok leader ∧
        (leader.address = first.address ↔
          ∀ x ∈ list.servers, x.id = first.id → s.place first ≤ s.place x) := by
  obtain ⟨proper, hne⟩ := membership?_eq_some hslist
  have hsperm := taken_servers_perm proper hs.coherent.distinct hsreaches
  have htperm := taken_servers_perm proper ht.coherent.distinct htreaches
  have hsordered := ordered_taken proper hs.coherent.distinct
  have htordered := ordered_taken proper ht.coherent.distinct
  have hsne : taken list s ≠ [] := fun hempty => hne (by simpa [hempty] using hsperm)
  have htne : taken list t ≠ [] := fun hempty => hne (by simpa [hempty] using htperm)
  have haddresses (handles : List Handle) :
      handles.map Handle.address = (handles.map Handle.server).map Server.address := by
    rw [List.map_map]
    rfl
  refine ⟨_, _, refresh_allServers_eq hsopen hslist hsne, refresh_allServers_eq htopen htlist htne,
    ?_, ?_, ?_⟩
  · rw [haddresses, proper.map_address_eq_iff hsperm.subset (List.Subset.refl _),
      proper.eq_iff hsperm (.refl _) hsordered proper.precedes]
    simp
  · rw [haddresses, haddresses, proper.map_address_eq_iff hsperm.subset htperm.subset,
      proper.eq_iff hsperm htperm hsordered htordered]
  · obtain ⟨first, hfirst⟩ := Option.isSome_iff_exists.mp (List.isSome_head?.mpr hne)
    obtain ⟨leader, hleader⟩ := Option.isSome_iff_exists.mp (List.isSome_head?.mpr hsne)
    refine ⟨first, leader, hfirst, refresh_leader_eq hsopen hslist hleader, ?_⟩
    rw [← proper.head?_eq_iff hsperm hsordered hfirst, List.head?_map, hleader, Option.map_some,
      Option.some_inj]
    have hmem : leader.server ∈ list.servers :=
      hsperm.subset (List.mem_map_of_mem (List.mem_of_head? hleader))
    exact ⟨fun heq => List.inj_on_of_nodup_map proper.addresses hmem (List.mem_of_head? hfirst) heq,
      fun heq => congrArg Server.address heq⟩

-- The second server, known by `id`, was there first, or both were there at once.
def pair (id : UInt64) : List Server :=
  [hosted 1 "a" 8021, hosted id "b" 8022]

def grown (id : UInt64) : Selector :=
  (startedWith [hosted id "b" 8022]).take (.cluster (fun _ => false) fun _ => pair id)

def settled (id : UInt64) : Selector :=
  (startedWith (pair id)).take (.cluster (fun _ => false) fun _ => pair id)

theorem grown_reachable (id : UInt64) : Reachable (grown id) :=
  (Reachable.startedWith _).take _

theorem settled_reachable (id : UInt64) : Reachable (settled id) :=
  (Reachable.startedWith _).take _

theorem distinct_ids_listed_alike : ∃ l m, (grown 2).refresh.2.allServers.1 = .ok l ∧
    (settled 2).refresh.2.allServers.1 = .ok m ∧ l.map Handle.address = m.map Handle.address := by
  have hlist : (grown 2).membership? = some (.ofServers (pair 2)) := by cbv
  obtain ⟨l, m, hl, hm, -, halike, -⟩ := refresh_order_iff (grown_reachable 2) (settled_reachable 2)
    (by cbv) (by cbv) hlist (by cbv) (fun _ _ => .inr Bool.false_ne_true)
    (fun _ _ => .inr Bool.false_ne_true)
  have hservers : (ServerList.ofServers (pair 2)).servers = pair 2 := by cbv
  rw [hservers] at halike
  exact ⟨l, m, hl, hm, halike.mpr (by simp [pair, hosted])⟩

-- With one id for both servers, the one that was there first comes first.
theorem shared_id_listed_apart : ¬∀ s t list, Reachable s → Reachable t → s.closed = false →
    t.closed = false → s.membership? = some list → t.membership? = some list → s.Reaches list →
    t.Reaches list → ∃ l m, s.refresh.2.allServers.1 = .ok l ∧ t.refresh.2.allServers.1 = .ok m ∧
      l.map Handle.address = m.map Handle.address ∧
      l.map Handle.address = list.servers.map Server.address := by
  intro h
  obtain ⟨l, m, hl, hm, halike, -⟩ := h (grown 1) (settled 1) (.ofServers (pair 1))
    (grown_reachable 1) (settled_reachable 1) (by cbv) (by cbv) (by cbv) (by cbv)
    (fun _ _ => .inr Bool.false_ne_true) (fun _ _ => .inr Bool.false_ne_true)
  have hgrown : (grown 1).refresh.2.allServers.1 =
      .ok [⟨hosted 1 "b" 8022, 0⟩, ⟨hosted 1 "a" 8021, 1⟩] := by cbv
  have hsettled : (settled 1).refresh.2.allServers.1 =
      .ok [⟨hosted 1 "a" 8021, 0⟩, ⟨hosted 1 "b" 8022, 1⟩] := by cbv
  cases hl.symm.trans hgrown
  cases hm.symm.trans hsettled
  exact absurd halike (by decide +kernel)

end Selector

end NamespaceService
