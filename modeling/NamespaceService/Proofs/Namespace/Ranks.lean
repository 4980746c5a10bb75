import NamespaceService.Proofs.Namespace.Takings

namespace NamespaceService

open Program

def Key.category : Key → Category
  | .node _ => .node
  | .block _ => .block
  | .lease _ => .lease
  | .replica .. => .replica
  | .replicaUnderConstruction .. => .replicaUnderConstruction
  | .register _ => .register

-- How a run comes to a row: on its own, in a list, or as the node at which a chain breaks off.
inductive Manner
  | single
  | listed
  | stray
deriving DecidableEq

namespace Rows

variable {rows : Rows} {key : Key} {manner manner' : Manner} {rank rank' : List Nat}

-- Nodes rank by position, those that are listed come after them by directory and id, and blocks rank
-- by owner and id.
inductive Ranks (rows : Rows) : Key → Manner → List Nat → Prop
  | single {p : Position} {n : Node} (h : rows.place p = some n) :
    Ranks rows (.node n.id) .single (0 :: 0 :: Ranked.rank p)
  | listed {n : Node} (h : .node n ∈ rows.toList) :
    Ranks rows (.node n.id) .listed (0 :: 1 :: Ranked.rank n.parent ++ Ranked.rank n.id)
  | stray (id : NodeId) : Ranks rows (.node id) .stray [0, 1]
  | block {b : Block} (manner : Manner) (h : .block b ∈ rows.toList) :
    Ranks rows (.block b.id) manner (1 :: Ranked.rank b.owner ++ Ranked.rank b.id)
  | absent {id : BlockId} (manner : Manner) (h : rows.find? (.block id) = none) :
    Ranks rows (.block id) manner [1]
  | other {key : Key} (manner : Manner) (h : key.category ≠ .node ∧ key.category ≠ .block) :
    Ranks rows key manner (Ranked.rank key)

namespace Ranks

theorem unique (h : rows.Ranks key manner rank) (h' : rows.Ranks key manner rank') :
    rank = rank' := by
  cases h
  case single p m hm =>
    generalize hkey : Key.node m.id = key at h'
    cases h'
    case single q n hn => rw [Rows.place_injective hm hn (Key.node.inj hkey)]
    case other h => cases hkey; exact absurd rfl h.1
    all_goals cases hkey
  case listed m hm =>
    generalize hkey : Key.node m.id = key at h'
    cases h'
    case listed n hn => rw [node_eq_of_mem hm hn (Key.node.inj hkey)]
    case other h => cases hkey; exact absurd rfl h.1
    all_goals cases hkey
  case stray id =>
    cases h'
    case stray => rfl
    case other h => exact absurd rfl h.1
  case block b hb =>
    generalize hkey : Key.block b.id = key at h'
    cases h'
    case block b' hb' =>
      have hrow : Row.block b = .block b' := SortedBy.eq_of_mem hb hb' hkey
      rw [Row.block.inj hrow]
    case absent id hnone =>
      have hfound := SortedBy.find?_of_mem hb
      cases hfound.symm.trans ((congrArg rows.find? hkey).trans hnone)
    case other h => cases hkey; exact absurd rfl h.2
    all_goals cases hkey
  case absent id hnone =>
    generalize hkey : Key.block id = key at h'
    cases h'
    case block b hb =>
      have hfound := SortedBy.find?_of_mem hb
      cases hfound.symm.trans ((congrArg rows.find? hkey.symm).trans hnone)
    case absent => rfl
    case other h => cases hkey; exact absurd rfl h.2
    all_goals cases hkey
  case other h =>
    cases h'
    case other => rfl
    case block => exact absurd rfl h.2
    case absent => exact absurd rfl h.2
    all_goals exact absurd rfl h.1

-- The manner matters for nodes only.
theorem of_manner (h : rows.Ranks key manner rank) (hkey : key.category ≠ .node) :
    rows.Ranks key manner' rank := by
  cases h
  case block hb => exact .block _ hb
  case absent hnone => exact .absent _ hnone
  case other hother => exact .other _ hother
  all_goals exact absurd rfl hkey

theorem unique_of_manner (h : rows.Ranks key manner rank) (h' : rows.Ranks key manner' rank')
    (hmanner : key.category = .node → manner = manner') : rank = rank' := by
  by_cases hkey : key.category = .node
  case pos =>
    cases hmanner hkey
    exact h.unique h'
  case neg => exact (h.of_manner hkey).unique h'

theorem exists_block (id : BlockId) : ∃ rank, rows.Ranks (.block id) manner rank := by
  cases hfound : rows.find? (.block id)
  case none => exact ⟨_, .absent manner hfound⟩
  case some row =>
    have hkey := SortedBy.key_of_find? hfound
    cases row
    case block b =>
      cases hkey
      exact ⟨_, .block manner (SortedBy.mem_of_find? hfound)⟩
    case replica r =>
      rw [Row.key] at hkey
      split at hkey <;> cases hkey
    all_goals cases hkey

-- The category comes first.
theorem exists_eq_cons (h : rows.Ranks key manner rank) :
    ∃ rest, rank = key.category.order :: rest := by
  cases h
  case other => cases key <;> exact ⟨_, rfl⟩
  all_goals exact ⟨_, rfl⟩

end Ranks

end Rows

-- `stray` is where a chain breaks off, if one does.
def manner (stray : Option Key) (x : Key × Bool) : Manner :=
  if stray = some x.1 then .stray else if x.2 then .listed else .single

namespace Rows

variable {rows : Rows} {stray stray' : Option Key} {category : Category} {l l' : List (Key × Bool)}
  {x y : Key × Bool}

def Precedes (rows : Rows) (stray : Option Key) (x y : Key × Bool) : Prop :=
  x.1 = y.1 ∨ ∃ rank rank', rows.Ranks x.1 (manner stray x) rank ∧
    rows.Ranks y.1 (manner stray y) rank' ∧ rank < rank'

-- Rows of some categories are taken in the order of their ranks.
structure InOrder (rows : Rows) (stray : Option Key) (categories : List Category)
    (l : List (Key × Bool)) : Prop where
  category {x : Key × Bool} : x ∈ l → x.1.category ∈ categories
  ranked {x : Key × Bool} : x ∈ l → ∃ rank, rows.Ranks x.1 (manner stray x) rank
  pairwise : l.Pairwise (rows.Precedes stray)

namespace InOrder

variable {categories categories' : List Category}

theorem nil : rows.InOrder stray categories [] :=
  ⟨nofun, nofun, .nil⟩

theorem of_stray (h : rows.InOrder stray categories l) (hnode : .node ∉ categories) :
    rows.InOrder stray' categories l where
  category := h.category
  ranked hx := by
    obtain ⟨rank, hrank⟩ := h.ranked hx
    exact ⟨rank, hrank.of_manner fun heq => hnode (heq ▸ h.category hx)⟩
  pairwise := by
    refine h.pairwise.imp_of_mem fun {x y} hx hy hxy => hxy.imp_right ?_
    rintro ⟨rank, rank', hrank, hrank', hlt⟩
    exact ⟨rank, rank', hrank.of_manner fun heq => hnode (heq ▸ h.category hx),
      hrank'.of_manner fun heq => hnode (heq ▸ h.category hy), hlt⟩

theorem mono (h : rows.InOrder stray categories l) (hsub : categories ⊆ categories') :
    rows.InOrder stray categories' l where
  category hx := hsub (h.category hx)
  ranked := h.ranked
  pairwise := h.pairwise

theorem join (h : rows.InOrder stray categories l) (h' : rows.InOrder stray categories l')
    (hacross : ∀ x ∈ l, ∀ y ∈ l', rows.Precedes stray x y) :
    rows.InOrder stray categories (l ++ l') where
  category hx := (List.mem_append.mp hx).elim h.category h'.category
  ranked hx := (List.mem_append.mp hx).elim h.ranked h'.ranked
  pairwise := List.pairwise_append.mpr ⟨h.pairwise, h'.pairwise, hacross⟩

-- Categories come one after another.
theorem append (h : rows.InOrder stray categories l) (h' : rows.InOrder stray categories' l')
    (hbefore : ∀ c ∈ categories, ∀ c' ∈ categories', c.order < c'.order) :
    rows.InOrder stray (categories ++ categories') (l ++ l') := by
  refine (h.mono (List.subset_append_left ..)).join (h'.mono (List.subset_append_right ..)) ?_
  intro x hx y hy
  obtain ⟨rank, hrank⟩ := h.ranked hx
  obtain ⟨rank', hrank'⟩ := h'.ranked hy
  refine .inr ⟨rank, rank', hrank, hrank', ?_⟩
  obtain ⟨rest, rfl⟩ := hrank.exists_eq_cons
  obtain ⟨rest', rfl⟩ := hrank'.exists_eq_cons
  exact List.cons_lt_cons_iff.mpr (.inl (hbefore _ (h.category hx) _ (h'.category hy)))

theorem singleton {key : Key} {listed : Bool} {rank : List Nat}
    (h : rows.Ranks key (manner stray (key, listed)) rank) :
    rows.InOrder stray [key.category] [(key, listed)] where
  category hx := by
    cases List.mem_singleton.mp hx
    exact List.mem_singleton_self _
  ranked hx := by
    cases List.mem_singleton.mp hx
    exact ⟨rank, h⟩
  pairwise := List.pairwise_singleton ..

theorem flatMap {δ : Type} {ds : List δ} {g : δ → List (Key × Bool)}
    (h : ∀ d, rows.InOrder stray categories (g d))
    (hacross : ds.Pairwise fun d d' => ∀ x ∈ g d, ∀ y ∈ g d', rows.Precedes stray x y) :
    rows.InOrder stray categories (ds.flatMap g) := by
  induction ds
  case nil => exact .nil
  case cons d ds ih =>
    obtain ⟨hd, hds⟩ := List.pairwise_cons.mp hacross
    refine (h d).join (ih hds) fun x hx y hy => ?_
    obtain ⟨d', hd', hy⟩ := List.mem_flatMap.mp hy
    exact hd d' hd' x hx y hy

-- Rows of several lists come list by list, and in each list by key.
theorem lists {δ : Type} [Ranked δ] {ds : List δ} {finder : δ → Finder} (rank : δ → Row → List Nat)
    (hds : ds.Pairwise Ranked.Before)
    (hlist : ∀ d, ∀ row ∈ rows.lookupList (finder d), row.key.category = category ∧
      rows.Ranks row.key (manner stray (row.key, true)) (rank d row))
    (hwithin : ∀ d, ∀ row ∈ rows.lookupList (finder d), ∀ row' ∈ rows.lookupList (finder d),
      Ranked.Before row.key row'.key → rank d row < rank d row')
    (hacross : ∀ d d', Ranked.Before d d' → ∀ row ∈ rows.lookupList (finder d),
      ∀ row' ∈ rows.lookupList (finder d'), rank d row < rank d' row') :
    rows.InOrder stray [category] (ds.flatMap fun d => rows.many (finder d)) := by
  refine .flatMap (fun d => ⟨fun {x} hx => ?_, fun {x} hx => ?_, ?_⟩)
    (hds.imp fun {d d'} hbefore x hx y hy => ?_)
  · obtain ⟨row, hrow, rfl⟩ := List.mem_map.mp hx
    exact List.mem_singleton.mpr (hlist d row hrow).1
  · obtain ⟨row, hrow, rfl⟩ := List.mem_map.mp hx
    exact ⟨_, (hlist d row hrow).2⟩
  · refine List.pairwise_map.mpr (List.Pairwise.imp_of_mem ?_ (rows.sorted.filter _))
    intro row row' hrow hrow' hbefore
    exact .inr ⟨_, _, (hlist d row hrow).2, (hlist d row' hrow').2,
      hwithin d row hrow row' hrow' hbefore⟩
  · obtain ⟨row, hrow, rfl⟩ := List.mem_map.mp hx
    obtain ⟨row', hrow', rfl⟩ := List.mem_map.mp hy
    exact .inr ⟨_, _, (hlist d row hrow).2, (hlist d' row' hrow').2,
      hacross d d' hbefore row hrow row' hrow'⟩

end InOrder

theorem one_of_key {finder : Finder} {key : Key} (h : finder.key? = some key) :
    rows.one finder = [(key, false)] := by
  cases hlookup : rows.lookup finder
  case none => simp [one, Store.restsOn?, hlookup, h]
  case some row =>
    have hkey : row.key = key := Finder.key_of_selects h (mem_of_lookup hlookup).2
    simp [one, Store.restsOn?, hlookup, hkey]

-- What is taken at a position, where a node is there.
def nodeAt (rows : Rows) (p : Position) : List (Key × Bool) :=
  (rows.place p).toList.map fun n => (.node n.id, false)

theorem nodeAt_of_place {p : Position} {n : Node} (h : rows.place p = some n) :
    rows.nodeAt p = [(.node n.id, false)] := by
  simp [nodeAt, h]

theorem mem_nodeAt {p : Position} (hx : x ∈ rows.nodeAt p) :
    ∃ n, rows.place p = some n ∧ x = (.node n.id, false) := by
  obtain ⟨n, hn, rfl⟩ := List.mem_map.mp hx
  exact ⟨n, by simpa using hn, rfl⟩

theorem walked_inOrder {ps : List Position} (hps : ps.Pairwise fun p q => p = q ∨ Ranked.Before p q) :
    rows.InOrder none [.node] (ps.flatMap rows.nodeAt) := by
  have hrank {p : Position} {n : Node} (hn : rows.place p = some n) : rows.Ranks (.node n.id)
      (manner none (.node n.id, false)) (0 :: 0 :: Ranked.rank p) := .single hn
  refine .flatMap (fun p => ?_) (hps.imp fun {p q} hpq x hx y hy => ?_)
  · cases hn : rows.place p
    case none =>
      rw [nodeAt, hn]
      exact .nil
    case some n =>
      rw [nodeAt_of_place hn]
      exact .singleton (hrank hn)
  · obtain ⟨m, hm, rfl⟩ := mem_nodeAt hx
    obtain ⟨n, hn, rfl⟩ := mem_nodeAt hy
    obtain rfl | hbefore := hpq
    · cases hm.symm.trans hn
      exact .inl rfl
    · refine .inr ⟨_, _, hrank hm, hrank hn, ?_⟩
      exact List.cons_lt_cons_iff.mpr (.inr ⟨rfl, List.cons_lt_cons_iff.mpr (.inr ⟨rfl, hbefore⟩)⟩)

-- Where a chain breaks off, no more than one node was taken before.
theorem stray_inOrder {ps : List Position} {id : NodeId} (hps : ps.length ≤ 1)
    (hl : l = [] ∨ l = [(.node id, false)]) :
    rows.InOrder (some (.node id)) [.node] (ps.flatMap rows.nodeAt ++ l) := by
  have hstray : rows.Ranks (.node id) (manner (some (.node id)) (.node id, false)) [0, 1] := by
    rw [manner, if_pos rfl]
    exact .stray id
  have hend : rows.InOrder (some (.node id)) [.node] l := by
    obtain rfl | rfl := hl
    · exact .nil
    · exact .singleton hstray
  match ps with
  | [] => exact hend
  | [p] =>
    rw [List.flatMap_singleton]
    cases hn : rows.place p
    case none => simpa [nodeAt, hn] using hend
    case some n =>
      rw [nodeAt_of_place hn]
      by_cases hid : n.id = id
      case pos =>
        subst hid
        refine (InOrder.singleton hstray).join hend fun x hx y hy => ?_
        obtain rfl | rfl := hl
        · cases hy
        · cases List.mem_singleton.mp hx
          cases List.mem_singleton.mp hy
          exact .inl rfl
      case neg =>
        have hsingle : rows.Ranks (.node n.id) (manner (some (.node id)) (.node n.id, false))
            (0 :: 0 :: Ranked.rank p) := by
          rw [manner, if_neg (by simpa using Ne.symm hid)]
          exact .single hn
        refine (InOrder.singleton hsingle).join hend fun x hx y hy => ?_
        obtain rfl | rfl := hl
        · cases hy
        · cases List.mem_singleton.mp hx
          cases List.mem_singleton.mp hy
          refine .inr ⟨_, _, hsingle, hstray, ?_⟩
          simp [List.cons_lt_cons_iff]

theorem before_id_iff {d d' : NodeId} : Ranked.Before d d' ↔ d.value.toNat < d'.value.toNat := by
  simp [Ranked.Before, Ranked.rank, List.cons_lt_cons_iff]

theorem before_block_iff {d d' : BlockId} : Ranked.Before d d' ↔ d.value.toNat < d'.value.toNat := by
  simp [Ranked.Before, Ranked.rank, List.cons_lt_cons_iff]

theorem mem_children {d : NodeId} {row : Row} (hrow : row ∈ rows.lookupList (.children d)) :
    ∃ n : Node, row = .node n ∧ n.parent = d ∧ row ∈ rows.toList := by
  obtain ⟨hmem, hlists⟩ := mem_lookupList_iff.mp hrow
  cases row
  case node n => exact ⟨n, rfl, (isEntryOf_iff.mp hlists).2, hmem⟩
  all_goals cases hlists

theorem children_inOrder {ds : List NodeId} (hds : ds.Pairwise Ranked.Before) :
    rows.InOrder none [.node] (ds.flatMap fun d => rows.many (.children d)) := by
  refine InOrder.lists (fun d row => 0 :: 1 :: Ranked.rank d ++ (Ranked.rank row.key).tail) hds ?_ ?_ ?_
  · intro d row hrow
    obtain ⟨n, rfl, rfl, hmem⟩ := mem_children hrow
    exact ⟨rfl, .listed hmem⟩
  · intro d row hrow row' hrow' hbefore
    obtain ⟨n, rfl, -, -⟩ := mem_children hrow
    obtain ⟨n', rfl, -, -⟩ := mem_children hrow'
    simpa [Ranked.Before, Ranked.rank, Row.key] using hbefore
  · intro d d' hbefore row _ row' _
    simp [Ranked.rank, List.cons_lt_cons_iff, before_id_iff.mp hbefore]

-- Entries that are listed come after the nodes at positions.
theorem walked_children_inOrder {ps : List Position} {ds : List NodeId}
    (hps : ps.Pairwise fun p q => p = q ∨ Ranked.Before p q) (hds : ds.Pairwise Ranked.Before) :
    rows.InOrder none [.node]
      (ps.flatMap rows.nodeAt ++ ds.flatMap fun d => rows.many (.children d)) := by
  refine (walked_inOrder hps).join (children_inOrder hds) fun x hx y hy => ?_
  obtain ⟨p, -, hx⟩ := List.mem_flatMap.mp hx
  obtain ⟨m, hm, rfl⟩ := mem_nodeAt hx
  obtain ⟨d, -, hy⟩ := List.mem_flatMap.mp hy
  obtain ⟨row, hrow, rfl⟩ := List.mem_map.mp hy
  obtain ⟨n, rfl, -, hn⟩ := mem_children hrow
  refine .inr ⟨_, _, .single hm, .listed hn, ?_⟩
  simp [List.cons_lt_cons_iff]

theorem blocks_inOrder {ds : List NodeId} (hds : ds.Pairwise Ranked.Before) :
    rows.InOrder stray [.block] (ds.flatMap fun d => rows.many (.blocksOf d)) := by
  have hlist : ∀ d, ∀ row ∈ rows.lookupList (.blocksOf d),
      ∃ b : Block, row = .block b ∧ b.owner = d ∧ row ∈ rows.toList := by
    intro d row hrow
    obtain ⟨hmem, hlists⟩ := mem_lookupList_iff.mp hrow
    cases row
    case block b => exact ⟨b, rfl, of_decide_eq_true hlists, hmem⟩
    all_goals cases hlists
  refine InOrder.lists (fun d row => 1 :: Ranked.rank d ++ (Ranked.rank row.key).tail) hds ?_ ?_ ?_
  · intro d row hrow
    obtain ⟨b, rfl, rfl, hmem⟩ := hlist d row hrow
    exact ⟨rfl, .block _ hmem⟩
  · intro d row hrow row' hrow' hbefore
    obtain ⟨b, rfl, -, -⟩ := hlist d row hrow
    obtain ⟨b', rfl, -, -⟩ := hlist d row' hrow'
    simpa [Ranked.Before, Ranked.rank, Row.key] using hbefore
  · intro d d' hbefore row _ row' _
    simp [Ranked.rank, List.cons_lt_cons_iff, before_id_iff.mp hbefore]

theorem key_of_replica {d : BlockId} {row : Row} (hrow : row ∈ rows.lookupList (.replicas d)) :
    ∃ storage, row.key = .replica d storage := by
  obtain ⟨-, hlists⟩ := mem_lookupList_iff.mp hrow
  cases row
  case replica r =>
    obtain ⟨rfl, hfinished⟩ : r.block = d ∧ r.underConstruction = false := by
      simpa [Finder.lists] using hlists
    exact ⟨r.storage, if_neg (by simp [hfinished])⟩
  all_goals cases hlists

theorem key_of_replicaUnderConstruction {d : BlockId} {row : Row}
    (hrow : row ∈ rows.lookupList (.replicasUnderConstruction d)) :
    ∃ storage, row.key = .replicaUnderConstruction d storage := by
  obtain ⟨-, hlists⟩ := mem_lookupList_iff.mp hrow
  cases row
  case replica r =>
    obtain ⟨rfl, hunfinished⟩ : r.block = d ∧ r.underConstruction = true := by
      simpa [Finder.lists] using hlists
    exact ⟨r.storage, if_pos hunfinished⟩
  all_goals cases hlists

-- Replicas rank by block and storage, whether they are finished or not.
theorem replicas_inOrder {ds : List BlockId} {finder : BlockId → Finder} {key : BlockId → String → Key}
    (hds : ds.Pairwise Ranked.Before)
    (hlist : ∀ d, ∀ row ∈ rows.lookupList (finder d), ∃ storage, row.key = key d storage)
    (hkey : ∀ d storage, (key d storage).category = category ∧ Ranked.rank (key d storage) =
      category.order :: d.value.toNat :: Ranked.rank storage)
    (hcategory : category ≠ .node ∧ category ≠ .block) :
    rows.InOrder stray [category] (ds.flatMap fun d => rows.many (finder d)) := by
  refine InOrder.lists (fun _ row => Ranked.rank row.key) hds ?_ (fun _ _ _ _ _ h => h) ?_
  · intro d row hrow
    obtain ⟨storage, heq⟩ := hlist d row hrow
    have hrow : row.key.category = category := heq ▸ (hkey d storage).1
    exact ⟨hrow, .other _ (hrow ▸ hcategory)⟩
  · intro d d' hbefore row hrow row' hrow'
    obtain ⟨storage, heq⟩ := hlist d row hrow
    obtain ⟨storage', heq'⟩ := hlist d' row' hrow'
    rw [heq, heq', (hkey d storage).2, (hkey d' storage').2]
    exact List.cons_lt_cons_iff.mpr (.inr ⟨rfl, List.cons_lt_cons_iff.mpr
      (.inl (before_block_iff.mp hbefore))⟩)

theorem registers_inOrder {ds : List Register} (hds : ds.Pairwise Ranked.Before) :
    rows.InOrder stray [.register] (ds.flatMap fun d => rows.one (.register d)) := by
  have hone : ∀ d, rows.one (.register d) = [(.register d, false)] := fun d => one_of_key rfl
  have hrank : ∀ d, rows.Ranks (.register d) (manner stray (.register d, false))
      (Ranked.rank (Key.register d)) := fun d => .other _ (by simp [Key.category])
  refine .flatMap (fun d => hone d ▸ .singleton (hrank d)) (hds.imp fun {d d'} hbefore x hx y hy => ?_)
  rw [hone] at hx hy
  cases List.mem_singleton.mp hx
  cases List.mem_singleton.mp hy
  exact .inr ⟨_, _, hrank d, hrank d', List.cons_lt_cons_iff.mpr (.inr ⟨rfl, hbefore⟩)⟩

end Rows

end NamespaceService
