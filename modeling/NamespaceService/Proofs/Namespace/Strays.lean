import NamespaceService.Proofs.Namespace.Ranks
import NamespaceService.Proofs.Namespace.Relocking

namespace NamespaceService

namespace Downwards

variable {held held' : List NodeId} {nodes nodes' : List Node} {n : Node}

theorem congr (h : ∀ id, id ∈ held ↔ id ∈ held') : Downwards held nodes ↔ Downwards held' nodes := by
  induction nodes generalizing held held'
  case nil => exact Iff.rfl
  case cons n nodes ih =>
    refine and_congr (by rw [h]) (ih fun id => ?_)
    rw [List.mem_cons, List.mem_cons, h]

theorem concat_iff : Downwards held (nodes ++ [n]) ↔
    Downwards held nodes ∧ (n.isRoot ∨ n.parent ∈ held ∨ n.parent ∈ nodes.map Node.id) := by
  induction nodes generalizing held
  case nil => simp [Downwards]
  case cons first nodes ih =>
    rw [List.cons_append, Downwards, Downwards, ih, and_assoc, List.mem_cons, List.map_cons,
      List.mem_cons]
    tauto

end Downwards

namespace LockSet

variable {rows : Rows} {locks : LockSet} {asks : List (Node × LockKind)} {held : List NodeId}
  {ask : Node × LockKind}

theorem missing_sublist : (locks.missing asks).Sublist asks := by
  fun_induction missing locks asks
  case case1 => exact .refl []
  case case2 ih => exact ih.cons _
  case case3 ih => exact ih.cons_cons _

-- What is asked for is locked now or before.
theorem mem_missing_or (hpresent : ∀ ask ∈ asks, .node ask.1 ∈ rows.toList) (hask : ask ∈ asks) :
    ask.1 ∈ (locks.missing asks).map Prod.fst ∨ ∃ kind, locks.holds (.node ask.1.id) kind := by
  fun_induction missing locks asks
  case case1 => cases hask
  case case2 locks n kind asks hheld ih =>
    have ⟨_, hpresent⟩ := List.forall_mem_cons.mp hpresent
    obtain rfl | hask := List.mem_cons.mp hask
    · exact .inr ⟨kind, hheld⟩
    · exact ih hpresent hask
  case case3 locks n kind asks _ ih =>
    have ⟨hn, hpresent⟩ := List.forall_mem_cons.mp hpresent
    obtain rfl | hask := List.mem_cons.mp hask
    · exact .inl List.mem_cons_self
    · obtain hmem | ⟨k, hk⟩ := ih hpresent hask
      · exact .inl (List.mem_cons_of_mem _ hmem)
      · obtain hk | ⟨heq, -⟩ := holds_record_iff.mp hk
        · exact .inr ⟨k, hk⟩
        · cases Rows.node_eq_of_mem (hpresent ask hask) hn (Key.node.inj heq).symm
          exact .inl List.mem_cons_self

-- What is held already is not locked again, which makes no difference to the order.
theorem missing_downwards_iff (hpresent : ∀ ask ∈ asks, .node ask.1 ∈ rows.toList)
    (hheld : ∀ id, id ∈ held ↔ ∃ kind, locks.holds (.node id) kind)
    (hclosed : ∀ ask ∈ asks, ask.1.id ∈ held → ask.1.isRoot ∨ ask.1.parent ∈ held) :
    Downwards held ((locks.missing asks).map Prod.fst) ↔ Downwards held (asks.map Prod.fst) := by
  fun_induction missing locks asks generalizing held
  case case1 => exact Iff.rfl
  case case2 locks n kind asks hkind ih =>
    have ⟨_, hpresent⟩ := List.forall_mem_cons.mp hpresent
    have ⟨hfirst, hclosed⟩ := List.forall_mem_cons.mp hclosed
    have hmem : n.id ∈ held := (hheld n.id).mpr ⟨kind, hkind⟩
    rw [ih hpresent hheld hclosed, List.map_cons, Downwards, and_iff_right (hfirst hmem)]
    refine Downwards.congr fun id => (or_iff_right_of_imp ?_).symm.trans List.mem_cons.symm
    rintro rfl
    exact hmem
  case case3 locks n kind asks _ ih =>
    have ⟨hn, hpresent⟩ := List.forall_mem_cons.mp hpresent
    have ⟨_, hclosed⟩ := List.forall_mem_cons.mp hclosed
    refine and_congr_right fun hdown => ih hpresent (fun id => ?_) fun other hother hmem => ?_
    · rw [List.mem_cons, hheld]
      constructor
      case mp =>
        rintro (rfl | ⟨k, hk⟩)
        · exact ⟨kind, holds_record_iff.mpr (.inr ⟨rfl, LockKind.le_refl kind⟩)⟩
        · exact ⟨k, holds_record_iff.mpr (.inl hk)⟩
      case mpr =>
        rintro ⟨k, hk⟩
        obtain hk | ⟨heq, -⟩ := holds_record_iff.mp hk
        · exact .inr ⟨k, hk⟩
        · exact .inl (Key.node.inj heq).symm
    · refine (?_ : other.1.isRoot ∨ other.1.parent ∈ held).imp_right (List.mem_cons_of_mem _)
      obtain heq | hmem := List.mem_cons.mp hmem
      · exact Rows.node_eq_of_mem (hpresent other hother) hn heq ▸ hdown
      · exact hclosed other hother hmem

end LockSet

namespace Rows

variable {rows : Rows} {parent : Option Node} {held : List NodeId} {kind : LockKind}
  {finder : Finder} {key : Key} {l : List Grant}

theorem nodesOf_eq_nil (h : ∀ grant ∈ l, grant.1.category ≠ .node) : rows.nodesOf l = [] := by
  refine List.filterMap_eq_nil_iff.mpr fun grant hgrant => ?_
  cases hn : rows.node? grant.1
  case none => rfl
  case some n => exact absurd (congrArg Key.category (node?_eq_some_iff.mp hn).2) (h grant hgrant)

-- The part of a chain that is in place is linked from parent to child.
theorem inPlace_downwards {chain : List Node} (hparent : ∀ dir, parent = some dir → dir.id ∈ held) :
    Downwards held (rows.inPlace parent chain) := by
  fun_induction inPlace rows parent chain generalizing held
  case case2 parent expected rest n hn hsame ih =>
    refine ⟨?_, ih fun dir hdir => Option.some.inj hdir ▸ List.mem_cons_self⟩
    cases parent
    case none => exact .inl hsame
    case some dir =>
      have hsame : n.parent = dir.id ∧ n.name = expected.name := by
        simpa [Action.isInPlace] using hsame
      exact .inr (hsame.1 ▸ hparent dir rfl)
  all_goals trivial

theorem mem_of_inPlace {chain : List Node} {n : Node} (hn : n ∈ rows.inPlace parent chain) :
    .node n ∈ rows.toList := by
  fun_induction inPlace rows parent chain
  case case2 parent expected rest m hm _ ih =>
    obtain rfl | hn := List.mem_cons.mp hn
    · exact mem_of_node? hm
    · exact ih hn
  all_goals cases hn

theorem mem_of_stray? {chain found : List Node} {n : Node} (hn : rows.stray? chain found = some n) :
    .node n ∈ rows.toList :=
  have ⟨_, _, hn⟩ := Option.bind_eq_some_iff.mp hn
  mem_of_node? hn

end Rows

-- Nodes are locked before all else.
theorem RequestSet.toList_of_node {requests : RequestSet} {q : LockRequest}
    (h : requests.find? .node = some q) :
    ∃ rest, requests.toList = q :: rest ∧ ∀ q' ∈ rest, q'.category ≠ .node := by
  have hmem := SortedBy.mem_of_find? h
  have hq : q.category = .node := SortedBy.key_of_find? h
  have hsorted := requests.sorted
  cases hl : requests.toList
  case nil =>
    rw [hl] at hmem
    cases hmem
  case cons first rest =>
    rw [hl] at hmem hsorted
    obtain ⟨hfirst, -⟩ := List.pairwise_cons.mp hsorted
    obtain rfl | hrest := List.mem_cons.mp hmem
    · exact ⟨rest, rfl, fun q' hq' heq => (hfirst q' hq').ne (hq.trans heq.symm)⟩
    · have hbefore := hfirst q hrest
      rw [hq] at hbefore
      simp [Ranked.Before, Ranked.rank, Category.order, List.cons_lt_cons_iff] at hbefore

namespace Action

variable {rows : Rows} {mode : NodeMode} {kind : LockKind} {finder : Finder} {key : Key}
  {chain : List Node} {resolved : Resolved} {c : Context}

-- None of these is the key of a node.
def Aside (l : List Grant) : Prop :=
  ∀ grant ∈ l, grant.1.category ≠ .node

theorem lockFind_aside (hkey : finder.key? = some key) (hcategory : key.category ≠ .node) :
    Obtains rows (lockFind kind finder) c fun _ _ l => Aside l := by
  refine .lockFind (fun _ _ => nofun) fun _ grant hgrant => ?_
  rw [Rows.grant_of_key hkey] at hgrant
  rwa [List.mem_singleton.mp hgrant]

theorem lockList_aside (hlist : ∀ n : Node, ¬finder.lists (.node n)) :
    Obtains rows (lockList kind finder) c fun _ _ l => Aside l := by
  refine .lockList (fun _ _ => nofun) fun _ grant hgrant => ?_
  obtain ⟨row, hrow, rfl⟩ := List.mem_map.mp hgrant
  obtain ⟨-, hlists⟩ := Rows.mem_lookupList_iff.mp hrow
  cases row
  case node n => exact absurd hlists (hlist n)
  case replica r =>
    rw [Row.key]
    split <;> simp [Key.category]
  all_goals simp [Row.key, Key.category]

theorem lockBlocks_aside {target : BlockTarget} {files : List NodeId} :
    Obtains rows (lockBlocks kind target files) c fun _ _ l => Aside l := by
  cases target
  case byId id owner => exact .bind_pure (lockFind_aside rfl nofun)
  case ofResolvedFiles =>
    exact .bind_pure (.mapM fun _ _ => lockList_aside fun _ => Bool.false_ne_true)

theorem lockReplicas_aside {blocks : List Block} {finder : BlockId → Finder}
    (hlist : ∀ (d : BlockId) (n : Node), ¬(finder d).lists (.node n)) :
    Obtains rows (lockReplicas kind blocks finder) c fun _ _ l => Aside l :=
  .bind_pure (.mapM fun d _ => lockList_aside (hlist d))

theorem lockRegisters_aside {registers : List Register} :
    Obtains rows (lockRegisters kind registers) c fun _ _ l => Aside l :=
  .bind_pure (.mapM fun _ _ => lockFind_aside rfl nofun)

-- The other requests lock no nodes.
theorem acquireOne_aside {q : LockRequest} (hq : q.category ≠ .node) :
    Obtains rows (acquireOne resolved q) c fun resolved' _ l =>
      resolved'.chain = resolved.chain ∧ Aside l := by
  cases q
  case nodes => exact absurd rfl hq
  case blocks kind target => exact .bind_pure (lockBlocks_aside.mono fun _ _ _ h => ⟨rfl, h⟩)
  case lease kind holder =>
    have haside : Obtains rows (lockFind kind (.lease holder)) c fun _ _ l => Aside l :=
      lockFind_aside rfl nofun
    exact .bind_pure (haside.mono fun _ _ _ h => ⟨rfl, h⟩)
  case replicas kind =>
    have haside : Obtains rows (lockReplicas kind resolved.blocks .replicas) c fun _ _ l => Aside l :=
      lockReplicas_aside fun _ _ => Bool.false_ne_true
    exact .bind_pure (haside.mono fun _ _ _ h => ⟨rfl, h⟩)
  case replicasUnderConstruction kind =>
    have haside : Obtains rows (lockReplicas kind resolved.blocks .replicasUnderConstruction) c
        fun _ _ l => Aside l :=
      lockReplicas_aside fun _ _ => Bool.false_ne_true
    exact .bind_pure (haside.mono fun _ _ _ h => ⟨rfl, h⟩)
  case registers kind registers => exact .bind_pure (lockRegisters_aside.mono fun _ _ _ h => ⟨rfl, h⟩)

theorem acquireRest_aside {requests : List LockRequest} (h : ∀ q ∈ requests, q.category ≠ .node) :
    Obtains rows (requests.foldlM acquireOne resolved) c fun resolved' _ l =>
      resolved'.chain = resolved.chain ∧ Aside l := by
  induction requests generalizing resolved c
  case nil => exact .pure ⟨rfl, nofun⟩
  case cons q requests ih =>
    rw [List.foldlM_cons]
    refine (acquireOne_aside (h q List.mem_cons_self)).bind fun resolved₁ c₁ l hl => ?_
    refine (ih fun q' hq' => h q' (List.mem_cons_of_mem _ hq')).mono fun resolved₂ c₂ l' hl' => ?_
    exact ⟨hl'.1.trans hl.1, fun grant hgrant =>
      (List.mem_append.mp hgrant).elim (hl.2 grant) (hl'.2 grant)⟩

theorem acquire_obtains {requests : RequestSet} {tx : TxId} (hvalid : requests.validate = .ok ())
    (hnode : requests.find? .node = some (.nodes mode (.chain chain))) :
    Obtains rows (acquire requests) (.new tx) fun resolved _ l =>
      resolved.chain = rows.inPlace none chain ∧
        rows.nodesOf l = LockSet.missing .empty (rows.asksOf mode chain resolved.chain) := by
  obtain ⟨rest, hl, hrest⟩ := RequestSet.toList_of_node hnode
  rw [acquire, hvalid, hl, List.foldlM_cons]
  refine Obtains.bind (P := fun _ c' l => c' = .new tx ∧ l = []) (.pure ⟨rfl, rfl⟩) ?_
  rintro _ _ _ ⟨rfl, rfl⟩
  have hfirst : Obtains rows (acquireOne .empty (.nodes mode (.chain chain))) (.new tx)
      fun resolved _ l => resolved.chain = rows.inPlace none chain ∧
        rows.nodesOf l = LockSet.missing .empty (rows.asksOf mode chain resolved.chain) :=
    .bind_pure lockChain_obtains
  refine hfirst.bind ?_
  rintro resolved c l ⟨hchain, hl⟩
  refine (acquireRest_aside hrest).mono ?_
  rintro resolved' _ l' ⟨hsame, haside⟩
  rw [List.nil_append, Rows.nodesOf_append, Rows.nodesOf_eq_nil haside, List.append_nil, hsame]
  exact ⟨hchain, hl⟩

end Action

namespace FreshRun

open NamespaceService.Action

variable {rows : Rows} {mode : NodeMode} {chain : List Node} {requests : RequestSet}

-- What came of a request to lock a chain: the nodes of it that are in place, and the one at which it
-- breaks off.
structure Descends (a : FreshRun rows (acquire requests)) (chain : List Node) (resolved : Resolved) :
    Prop where
  result_eq : a.result = .ok resolved
  downwards : Downwards [] resolved.chain
  mem_nodes_iff {n : Node} : n ∈ a.nodes ↔
    n ∈ resolved.chain ∨ rows.stray? chain resolved.chain = some n
  held_iff {n : Node} : .node n ∈ rows.toList →
    ((∃ kind, a.context.locks.holds (.node n.id) kind) ↔ n ∈ a.nodes)

-- Nodes are locked from parent to child, unless the chain breaks off at a node that is elsewhere by
-- now. Such a node is locked nevertheless, whether its parent is held or not.
theorem acquire_downwards_iff (a : FreshRun rows (acquire requests))
    (hvalid : requests.validate = .ok ())
    (hnode : requests.find? .node = some (.nodes mode (.chain chain))) (hcalm : a.Calm) :
    ∃ resolved, a.Descends chain resolved ∧ (Downwards [] a.nodes ↔
      ∀ n, rows.stray? chain resolved.chain = some n →
        n.isRoot ∨ n.parent ∈ resolved.chain.map Node.id) := by
  obtain ⟨hlocks, ⟨resolved, hresult, hchain, hacquired⟩ | ⟨-, hbusy, -⟩⟩ :=
    a.obtained acquire_straight (acquire_obtains hvalid hnode)
  case inr => exact absurd hcalm hbusy
  have hdown : Downwards [] resolved.chain := by
    rw [hchain]
    exact Rows.inPlace_downwards nofun
  have hasks : (rows.asksOf mode chain resolved.chain).map Prod.fst =
      resolved.chain ++ (rows.stray? chain resolved.chain).toList := NodeMode.onChain_map_fst
  have hpresent (ask) (hask : ask ∈ rows.asksOf mode chain resolved.chain) :
      .node ask.1 ∈ rows.toList := by
    have hn : ask.1 ∈ resolved.chain ++ (rows.stray? chain resolved.chain).toList :=
      hasks ▸ List.mem_map_of_mem hask
    obtain hn | hn := List.mem_append.mp hn
    · exact Rows.mem_of_inPlace (hchain ▸ hn)
    · exact Rows.mem_of_stray? (Option.mem_toList.mp hn)
  have hnodes : a.nodes =
      (LockSet.missing .empty (rows.asksOf mode chain resolved.chain)).map Prod.fst :=
    congrArg (List.map Prod.fst) hacquired
  refine ⟨resolved, ⟨hresult, hdown, fun {n} => ?_, exists_holds_iff hlocks⟩, ?_⟩
  · have hmem : n ∈ a.nodes ↔ n ∈ (rows.asksOf mode chain resolved.chain).map Prod.fst := by
      rw [hnodes]
      refine ⟨fun hn => (LockSet.missing_sublist.map _).subset hn, fun hn => ?_⟩
      obtain ⟨ask, hask, rfl⟩ := List.mem_map.mp hn
      refine (LockSet.mem_missing_or hpresent hask).resolve_right ?_
      rintro ⟨kind, hheld⟩
      exact LockSet.not_holds_empty hheld
    rw [hmem, hasks, List.mem_append, Option.mem_toList]
  · rw [hnodes, LockSet.missing_downwards_iff hpresent (fun id => ?_) (fun _ _ h => by cases h), hasks]
    · cases hstray : rows.stray? chain resolved.chain
      case none => simpa using hdown
      case some n => simp [Downwards.concat_iff, hdown]
    · refine ⟨nofun, ?_⟩
      rintro ⟨kind, hheld⟩
      exact absurd hheld LockSet.not_holds_empty

-- The chain has the file under its former name, in the directory where it still is.
def renamedChain : List Node :=
  [.root, ⟨⟨2⟩, .root, "b", .directory, []⟩, ⟨⟨3⟩, ⟨2⟩, "e", .file, []⟩]

def relockRenamed : RequestSet :=
  .ofList [.nodes .write (.chain renamedChain), .lease .read "h"]

theorem acquire_downwards_iff_branches :
    ∃ (a : FreshRun branches (acquire relockRenamed)) (resolved : Resolved),
      a.Descends renamedChain resolved ∧ (Downwards [] a.nodes ↔
        ∀ n, branches.stray? renamedChain resolved.chain = some n →
          n.isRoot ∨ n.parent ∈ resolved.chain.map Node.id) := by
  obtain ⟨a, -, ha⟩ : ∃ a : FreshRun branches (acquire relockRenamed), a.tx = 1 ∧
    a.before = unused branches := exists_run acquire_straight 1 _ rfl
  have hnode : relockRenamed.find? .node = some (.nodes .write (.chain renamedChain)) := by
    decide +kernel
  exact ⟨a, acquire_downwards_iff a (by decide +kernel) hnode (calm_of_unused ha)⟩

-- The chain has the file in the first directory, from which it has been moved to the second one.
def movedChain : List Node :=
  [.root, ⟨⟨1⟩, .root, "a", .directory, []⟩, ⟨⟨3⟩, ⟨1⟩, "f", .file, []⟩]

def relockMoved : RequestSet :=
  .ofList [.nodes .write (.chain movedChain)]

-- The file is locked for writing, though its directory is not locked at all.
theorem acquire_stray_without_parent : branches.WellFormed ∧ relockMoved.validate = .ok () ∧
    ∃ a : FreshRun branches (acquire relockMoved), a.Calm ∧ (∃ resolved, a.result = .ok resolved) ∧
      a.nodes = [.root, ⟨⟨1⟩, .root, "a", .directory, []⟩, ⟨⟨3⟩, ⟨2⟩, "f", .file, []⟩] ∧
      a.context.locks.kindOf? (.node ⟨3⟩) = some .write ∧
      a.context.locks.kindOf? (.node ⟨2⟩) = none ∧ ¬Downwards [] a.nodes := by
  obtain ⟨a, -, ha, hcheck⟩ := exists_checked 1 _ (unused_rows branches) (m := acquire relockMoved)
    (fun r c s => r.isOk && (branches.nodesOf (branches.grants s.events)).map Prod.fst =
        [.root, ⟨⟨1⟩, .root, "a", .directory, []⟩, ⟨⟨3⟩, ⟨2⟩, "f", .file, []⟩] &&
      c.locks.kindOf? (.node ⟨3⟩) = some .write && c.locks.kindOf? (.node ⟨2⟩) = none)
    (by decide +kernel)
  simp only [Bool.and_eq_true, decide_eq_true_eq] at hcheck
  obtain ⟨⟨⟨hok, hnodes⟩, hfile⟩, hdir⟩ := hcheck
  have hnodes : a.nodes =
      [.root, ⟨⟨1⟩, .root, "a", .directory, []⟩, ⟨⟨3⟩, ⟨2⟩, "f", .file, []⟩] := by
    rw [nodes, acquired, grants, events_of_unused ha, hnodes]
  refine ⟨branches_wellFormed, by decide +kernel, a, calm_of_unused ha, ?_, hnodes, hfile, hdir, ?_⟩
  · cases hresult : a.result
    case ok resolved => exact ⟨resolved, rfl⟩
    case error => simp [hresult, Except.isOk, Except.toBool] at hok
  · rw [hnodes]
    simp only [Downwards, Node.isRoot]
    decide

end FreshRun

end NamespaceService
