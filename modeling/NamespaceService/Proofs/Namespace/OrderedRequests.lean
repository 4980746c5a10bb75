import NamespaceService.Proofs.Namespace.Ranks
import NamespaceService.Proofs.Namespace.Takings
import NamespaceService.Proofs.Transaction.Positions

namespace NamespaceService

open Program Rows

namespace Action

variable {rows : Rows} {mode : NodeMode} {kind : LockKind} {finder : Finder}

theorem lockNode_takes (hrows : rows.Hierarchy) : Takes rows (lockNode kind finder) fun found l =>
    found = (rows.lookup finder).bind Row.node? ∧
      (l = [] ∨ kind ≠ .readCommitted ∧ l = rows.one finder) := by
  refine Takes.bind_pure ((Takes.lockFind hrows).mono ?_)
  rintro found l ⟨rfl, hl⟩
  exact ⟨rfl, hl⟩

-- A walk looks up what is at the position, if it finds what is above.
theorem finder?_at {locked : LockedAt} {here : Position} (hrows : rows.Hierarchy)
    (hlocked : ∀ p n, locked p = some n → rows.place p = some n)
    (hfinder : locked.finder? here = some finder) :
    (rows.lookup finder).bind Row.node? = rows.place here ∧ rows.one finder = rows.nodeAt here := by
  cases here using List.reverseRecOn
  case nil =>
    cases hfinder
    exact ⟨rfl, (one_of_key rfl).trans (nodeAt_of_place hrows.place_nil).symm⟩
  case append_singleton above name _ =>
    obtain ⟨dir, name', hdir, hd, hlast, rfl⟩ := LockedAt.finder?_eq_some (by simp) hfinder
    rw [List.dropLast_concat] at hdir
    rw [List.getLast?_concat] at hlast
    cases hlast
    have hplace : rows.place (above ++ [name]) =
        (rows.lookup (.nodeNamed dir.id name)).bind Row.node? := by
      rw [place_concat, hlocked _ _ hdir, Option.bind_some, entryNamed?, if_pos hd]
    refine ⟨hplace.symm, ?_⟩
    rw [nodeAt, hplace, one]
    cases hlookup : rows.lookup (.nodeNamed dir.id name)
    case none => rfl
    case some row =>
      obtain ⟨n, rfl, -⟩ := Finder.selects_nodeNamed (mem_of_lookup hlookup).2
      rfl

theorem settleKind_takes {want : Want} {level : Nat} :
    Takes rows (settleKind mode want level finder) fun _ l => l = [] := by
  rw [settleKind]
  split
  case isTrue =>
    refine Takes.probe.bind fun found l hl => ?_
    subst hl
    split
    all_goals exact .pure rfl
  case isFalse => exact .pure rfl

theorem noteDeadEnd_takes {here : Position} {rest : List Position} {node : Node} :
    Takes rows (noteDeadEnd here rest node) fun _ l => l = [] := by
  rw [noteDeadEnd]
  split
  case isTrue =>
    split
    case h_1 => exact Takes.log
    case h_2 => exact .pure rfl
  case isFalse => exact .pure rfl

theorem lockPosition_takes {paths rest : List Position} {locked : LockedAt} {here : Position}
    (hrows : rows.Hierarchy) (hlocked : ∀ p n, locked p = some n → rows.place p = some n) :
    Takes rows (lockPosition mode paths locked here rest) fun locked' l =>
      (∀ p n, locked' p = some n → rows.place p = some n) ∧ (l = [] ∨ l = rows.nodeAt here) := by
  rw [lockPosition]
  split
  case h_2 => exact .pure ⟨hlocked, .inl rfl⟩
  case h_1 finder hfinder =>
    obtain ⟨hplace, hone⟩ := finder?_at hrows hlocked hfinder
    refine settleKind_takes.bind fun kind? l hl => ?_
    subst hl
    cases kind?
    case none => exact .pure ⟨hlocked, .inl rfl⟩
    case some kind =>
      refine (lockNode_takes hrows).bind fun found l hfound => ?_
      obtain ⟨rfl, hl⟩ := hfound
      rw [hone] at hl
      rw [hplace]
      cases hnode : rows.place here
      case none => exact .pure ⟨hlocked, by simpa using hl.imp_right And.right⟩
      case some n =>
        refine noteDeadEnd_takes.bind fun _ l' hl' => .pure ?_
        subst hl'
        refine ⟨fun p m hm => ?_, by simpa using hl.imp_right And.right⟩
        rw [LockedAt.set] at hm
        split at hm
        case isTrue heq =>
          cases hm
          exact heq ▸ hnode
        case isFalse => exact hlocked p m hm

theorem walk_takes {paths rest : List Position} {locked : LockedAt} (hrows : rows.Hierarchy)
    (hlocked : ∀ p n, locked p = some n → rows.place p = some n) :
    Takes rows (walk mode paths locked rest) fun _ l =>
      ∃ ps : List Position, ps.Sublist rest ∧ l = ps.flatMap rows.nodeAt := by
  induction rest generalizing locked
  case nil => exact .pure ⟨[], .refl [], rfl⟩
  case cons here rest ih =>
    refine (lockPosition_takes hrows hlocked).bind fun locked' l hl => ?_
    refine (ih hl.1).mono ?_
    rintro _ _ ⟨ps, hps, rfl⟩
    obtain rfl | rfl := hl.2
    · exact ⟨ps, hps.cons here, rfl⟩
    · exact ⟨here :: ps, hps.cons_cons here, rfl⟩

theorem lockPaths_takes {paths : List String} (hrows : rows.Hierarchy) :
    Takes rows (lockPaths mode paths) fun _ l =>
      ∃ ps : List Position, ps.Pairwise Ranked.Before ∧ l = ps.flatMap rows.nodeAt := by
  have hsorted (positions : List Position) : (Position.closure positions).Pairwise Ranked.Before :=
    (SortedBy.ofList (positions.flatMap Position.fromRoot) : SortedBy (id : Position → Position)).sorted
  rw [lockPaths]
  refine Takes.ofExcept.bind fun parsed l hl => ?_
  subst hl
  refine (walk_takes hrows fun p n h => by cases h).bind fun locked l hl => ?_
  obtain ⟨ps, hps, rfl⟩ := hl
  refine (Takes.forM (f := noteResolved locked) fun _ => Takes.log).bind fun _ l hl => .pure ?_
  subst hl
  exact ⟨ps, (hsorted _).sublist hps, by simp⟩

-- Only the last two nodes of a chain are locked for reading or writing.
theorem le_of_kindAt {level levels : Nat} {leafIsDirectory : Bool}
    (h : mode.kindAt level levels leafIsDirectory ≠ .readCommitted) : levels ≤ level + 2 := by
  rw [NodeMode.kindAt] at h
  split at h
  case isTrue => omega
  case isFalse =>
    split at h
    case isTrue hparent => omega
    case isFalse => exact absurd rfl h

-- A node that is in place is where its parent is, or below.
theorem isInPlace_at {parent : Option Node} {p : Position} {expected n : Node} (hrows : rows.Hierarchy)
    (hparent : ∀ dir, parent = some dir → rows.place p = some dir) (hroot : parent = none → p = [])
    (hn : .node n ∈ rows.toList) (h : isInPlace parent expected n) :
    ∃ q, (p = q ∨ Ranked.Before p q) ∧ rows.place q = some n := by
  have hat (hisroot : n.isRoot) : rows.place [] = some n :=
    hrows.eq_root hn hisroot ▸ hrows.place_nil
  cases parent
  case none => exact ⟨p, .inl rfl, hroot rfl ▸ hat h⟩
  case some dir =>
    have hplace := hparent dir rfl
    have hsame : n.parent = dir.id ∧ n.name = expected.name := by simpa [isInPlace] using h
    by_cases hisroot : n.isRoot
    case pos =>
      cases hrows.eq_root hn hisroot
      have hp : p = [] := Rows.place_injective hplace hrows.place_nil hsame.1.symm
      exact ⟨[], .inl hp, hrows.place_nil⟩
    case neg =>
      obtain ⟨dir', hdir', hid, hd⟩ := hrows.parent hn hisroot
      cases Rows.node_eq_of_mem hdir' (Rows.mem_of_place hplace) (hid.trans hsame.1)
      refine ⟨p ++ [n.name], .inr (Position.before_of_append p n.name), ?_⟩
      rw [place_concat, hplace, Option.bind_some]
      exact hrows.entryNamed?_eq_some_iff.mpr ⟨hd, hn, hisroot, hid.symm, rfl⟩

-- What a chain takes from some position downwards: all of it is there, or it breaks off at a node that
-- is taken where it happens to be.
inductive Follows (rows : Rows) (p : Position) (chain found : List Node) (l : List (Key × Bool)) : Prop
  | whole (ps : List Position) (hlength : found.length = chain.length)
    (hps : (p :: ps).Pairwise fun p q => p = q ∨ Ranked.Before p q) (hl : l = ps.flatMap rows.nodeAt)
  | broken (ps : List Position) {n : Node} {l' : List (Key × Bool)} (hn : chain[found.length]? = some n)
    (hps : ps.length ≤ found.length) (hone : ps.length ≤ 1) (hl' : l' = [] ∨ l' = [(.node n.id, false)])
    (hl : l = ps.flatMap rows.nodeAt ++ l')

namespace Follows

variable {p q : Position} {chain found : List Node} {l l' : List (Key × Bool)} {expected n : Node}

-- One more node, which is only taken near the end of the chain.
theorem cons (h : Follows rows q chain found l') (hpq : p = q ∨ Ranked.Before p q)
    (hl : l = [] ∨ l = rows.nodeAt q ∧ chain.length ≤ 1) :
    Follows rows p (expected :: chain) (n :: found) (l ++ l') := by
  cases h
  case whole ps hlength hps hl' =>
    obtain ⟨hq, hps⟩ := List.pairwise_cons.mp hps
    have hp : ∀ r ∈ ps, p = r ∨ Ranked.Before p r := fun r hr => by
      obtain rfl | hpq := hpq
      · exact hq r hr
      · obtain rfl | hqr := hq r hr
        · exact .inr hpq
        · exact .inr (hpq.trans hqr)
    obtain rfl | ⟨rfl, -⟩ := hl
    · exact .whole ps (congrArg (· + 1) hlength) (List.pairwise_cons.mpr ⟨hp, hps⟩) hl'
    · refine .whole (q :: ps) (congrArg (· + 1) hlength) ?_ (by rw [hl', List.flatMap_cons])
      exact List.pairwise_cons.mpr ⟨List.forall_mem_cons.mpr ⟨hpq, hp⟩, List.pairwise_cons.mpr ⟨hq, hps⟩⟩
  case broken ps m tail hm hlength hone htail hl' =>
    obtain rfl | ⟨rfl, hshort⟩ := hl
    · exact .broken ps hm (Nat.le_succ_of_le hlength) hone htail hl'
    · have hfound : found.length < chain.length := (List.getElem?_eq_some_iff.mp hm).1
      have hnil : ps = [] := List.eq_nil_of_length_eq_zero (by omega)
      subst hnil
      exact .broken [q] hm (Nat.succ_le_succ (Nat.zero_le _)) le_rfl htail (by simp [hl'])

end Follows

theorem lockChainFrom_takes {levels level : Nat} {leafIsDirectory : Bool} {parent : Option Node}
    {p : Position} {chain : List Node} (hrows : rows.Hierarchy)
    (hlevels : level + chain.length = levels)
    (hparent : ∀ dir, parent = some dir → rows.place p = some dir) (hroot : parent = none → p = []) :
    Takes rows (lockChainFrom mode levels leafIsDirectory level parent chain) fun found l =>
      Follows rows p chain found l := by
  induction chain generalizing level parent p
  case nil => exact .pure (.whole [] rfl (List.pairwise_singleton ..) rfl)
  case cons expected rest ih =>
    rw [lockChainFrom]
    refine (lockNode_takes hrows).bind fun found l hfound => ?_
    obtain ⟨hfound, hl⟩ := hfound
    rw [one_of_key rfl] at hl
    have hbroken (message : String) : Takes rows (do log .debug message; return []) fun found l' =>
        Follows rows p (expected :: rest) found (l ++ l') := by
      refine Takes.log.bind fun _ l' hl' => .pure ?_
      subst hl'
      exact .broken [] rfl le_rfl (Nat.zero_le 1) (hl.imp_right And.right) (by simp)
    cases found
    case none => exact hbroken _
    case some n =>
      dsimp only
      split
      case isFalse => exact hbroken _
      case isTrue hplace =>
        obtain ⟨row, hrow, hnode⟩ := Option.bind_eq_some_iff.mp hfound.symm
        obtain ⟨hmem, hsel⟩ := mem_of_lookup hrow
        obtain ⟨m, rfl, hid⟩ := Row.eq_node_of_key (Finder.key_of_selects rfl hsel)
        cases hnode
        obtain ⟨q, hpq, hq⟩ := isInPlace_at hrows hparent hroot hmem hplace
        rw [List.length_cons] at hlevels
        have hrest : Takes rows (lockChainFrom mode levels leafIsDirectory (level + 1) (some n) rest)
            fun found l => Follows rows q rest found l :=
          ih (by omega) (fun dir hdir => Option.some.inj hdir ▸ hq) (by simp)
        refine Takes.bind_pure (hrest.mono fun found l' hfollows => hfollows.cons hpq ?_)
        refine hl.imp_right fun htaken => ⟨?_, ?_⟩
        · rw [htaken.2, nodeAt_of_place hq, hid]
        · have := le_of_kindAt htaken.1
          omega

theorem lockChain_takes {chain : List Node} (hrows : rows.Hierarchy) :
    Takes rows (lockChain mode chain) fun found l => Follows rows [] chain found l :=
  lockChainFrom_takes hrows (Nat.zero_add _) nofun fun _ => rfl

theorem lockChildren_takes {directories : List NodeId} (hrows : rows.Hierarchy) :
    Takes rows (lockChildren directories) fun _ l => ∃ ds : List NodeId, ds.Sublist directories ∧
      l = ds.flatMap fun d => rows.many (.children d) :=
  Takes.mapM fun _ _ => Takes.get fun _ => Takes.bind_pure
    ((Takes.lockList hrows).mono fun _ _ h => h.2.imp_right And.right)

theorem mapM_lockList_takes {δ : Type} {ds : List δ} {finder : δ → Finder} (hrows : rows.Hierarchy) :
    Takes rows (ds.mapM fun d => lockList kind (finder d)) fun _ l =>
      ∃ ds' : List δ, ds'.Sublist ds ∧ l = ds'.flatMap fun d => rows.many (finder d) :=
  Takes.mapM fun _ _ => (Takes.lockList hrows).mono fun _ _ h => h.2.imp_right And.right

theorem idsOf_sorted (nodes : List Node) : (Resolved.idsOf nodes).Pairwise Ranked.Before :=
  (SortedBy.ofList (nodes.map Node.id) : SortedBy (id : NodeId → NodeId)).sorted

variable {stray : Option Key}

theorem lockBlocks_takes {target : BlockTarget} {nodes : List Node} (hrows : rows.Hierarchy) :
    Takes rows (lockBlocks kind target (Resolved.idsOf nodes)) fun _ l =>
      rows.InOrder stray [.block] l := by
  cases target
  case byId id owner =>
    refine Takes.bind_pure ((Takes.lockFind hrows).mono ?_)
    rintro found l ⟨-, hl⟩
    rw [one_of_key rfl] at hl
    obtain rfl | ⟨-, rfl⟩ := hl
    · exact .nil
    · obtain ⟨rank, hrank⟩ : ∃ rank, rows.Ranks (.block id) (manner stray (.block id, false)) rank :=
        Ranks.exists_block id
      exact .singleton hrank
  case ofResolvedFiles =>
    refine Takes.bind_pure ((mapM_lockList_takes hrows).mono ?_)
    rintro found l ⟨ds, hds, rfl⟩
    exact blocks_inOrder ((idsOf_sorted nodes).sublist hds)

theorem lockReplicas_takes {category : Category} {blocks : List Block} {finder : BlockId → Finder}
    {key : BlockId → String → Key} (hrows : rows.Hierarchy)
    (hlist : ∀ d, ∀ row ∈ rows.lookupList (finder d), ∃ storage, row.key = key d storage)
    (hkey : ∀ d storage, (key d storage).category = category ∧ Ranked.rank (key d storage) =
      category.order :: d.value.toNat :: Ranked.rank storage)
    (hcategory : category ≠ .node ∧ category ≠ .block) :
    Takes rows (lockReplicas kind blocks finder) fun _ l => rows.InOrder stray [category] l := by
  rw [lockReplicas]
  refine Takes.bind_pure ((mapM_lockList_takes hrows).mono ?_)
  rintro found l ⟨ds, hds, rfl⟩
  exact replicas_inOrder ((SortedBy.sorted _).sublist hds) hlist hkey hcategory

theorem lockRegisters_takes {registers : List Register} (hrows : rows.Hierarchy) :
    Takes rows (lockRegisters kind registers) fun _ l => rows.InOrder stray [.register] l := by
  rw [lockRegisters]
  refine Takes.bind_pure ((Takes.mapM (g := fun d => rows.one (.register d)) fun _ _ =>
    (Takes.lockFind hrows).mono fun _ _ h => h.2.imp_right And.right).mono ?_)
  rintro found l ⟨ds, hds, rfl⟩
  exact registers_inOrder ((SortedBy.sorted _).sublist hds)

end Action

-- The node at which the chain of a request breaks off.
def LockRequest.stray? (resolved : Resolved) : LockRequest → Option Key
  | .nodes _ (.chain chain) => chain[resolved.chain.length]?.map (Key.node ·.id)
  | _ => none

-- The node at which the chain of a request set breaks off.
def LockRequest.strayOf? (requests : List LockRequest) (resolved : Resolved) : Option Key :=
  requests.findSome? (·.stray? resolved)

namespace LockRequest

variable {q : LockRequest} {requests : List LockRequest} {resolved resolved' : Resolved}

theorem stray?_of_category (h : q.category ≠ .node) : q.stray? resolved = none := by
  cases q
  case nodes => exact absurd rfl h
  all_goals rfl

theorem stray?_congr (h : resolved'.chain = resolved.chain) :
    q.stray? resolved' = q.stray? resolved := by
  simp only [stray?, h]

theorem strayOf?_cons_of_ne (h : q.category ≠ .node) :
    strayOf? (q :: requests) resolved = strayOf? requests resolved := by
  rw [strayOf?, List.findSome?_cons, stray?_of_category h]
  rfl

theorem strayOf?_cons_of_forall_ne (h : ∀ q ∈ requests, q.category ≠ .node) :
    strayOf? (q :: requests) resolved = q.stray? resolved := by
  have hrest : requests.findSome? (·.stray? resolved) = none :=
    List.findSome?_eq_none_iff.mpr fun q hq => stray?_of_category (h q hq)
  rw [strayOf?, List.findSome?_cons, hrest]
  cases q.stray? resolved <;> rfl

end LockRequest

namespace Action

variable {rows : Rows} {resolved : Resolved} {stray : Option Key}

theorem acquireNodes_takes {mode : NodeMode} {target : NodeTarget} (hrows : rows.Hierarchy) :
    Takes rows (acquireOne resolved (.nodes mode target)) fun resolved' l =>
      rows.InOrder ((LockRequest.nodes mode target).stray? resolved') [.node] l := by
  cases target
  case paths paths children =>
    refine (lockPaths_takes hrows).bind fun chains l hl => ?_
    obtain ⟨ps, hps, rfl⟩ := hl
    have hps := hps.imp fun {p q} hpq => (Or.inr hpq : p = q ∨ Ranked.Before p q)
    cases children
    case false =>
      refine .pure ?_
      rw [List.append_nil]
      exact walked_inOrder hps
    case true =>
      refine Takes.bind_pure ((lockChildren_takes hrows).mono ?_)
      rintro found l ⟨ds, hds, rfl⟩
      exact walked_children_inOrder hps ((idsOf_sorted _).sublist hds)
  case chain chain =>
    refine Takes.bind_pure ((lockChain_takes hrows).mono fun found l h => ?_)
    cases h
    case whole ps hlength hps hl =>
      have hnone : chain[found.length]? = none := by rw [hlength, List.getElem?_length]
      rw [LockRequest.stray?, hnone, hl]
      exact walked_inOrder (List.pairwise_cons.mp hps).2
    case broken ps n l' hn hps hone hl' hl =>
      rw [LockRequest.stray?, hn, hl]
      exact stray_inOrder hone hl'

theorem acquireOne_takes {q : LockRequest} (hrows : rows.Hierarchy) :
    Takes rows (acquireOne resolved q) fun resolved' l =>
      rows.InOrder (q.stray? resolved') [q.category] l ∧
        (q.category ≠ .node → resolved'.chain = resolved.chain) := by
  cases q
  case nodes mode target =>
    exact (acquireNodes_takes hrows).mono fun _ _ h => ⟨h, fun hne => absurd rfl hne⟩
  case blocks kind target =>
    exact Takes.bind_pure ((lockBlocks_takes hrows).mono fun _ _ h => ⟨h, fun _ => rfl⟩)
  case lease kind holder =>
    refine Takes.bind_pure ((Takes.lockFind hrows).mono fun _ l h => ⟨?_, fun _ => rfl⟩)
    rw [one_of_key rfl] at h
    obtain ⟨-, rfl | ⟨-, rfl⟩⟩ := h
    · exact .nil
    · have hother : rows.Ranks (.lease holder) .single (Ranked.rank (Key.lease holder)) :=
        .other _ ⟨nofun, nofun⟩
      exact .singleton (hother.of_manner nofun)
  case replicas kind =>
    have htakes : Takes rows (lockReplicas kind resolved.blocks .replicas) fun _ l =>
        rows.InOrder none [.replica] l :=
      lockReplicas_takes hrows (fun _ _ => key_of_replica) (fun _ _ => ⟨rfl, rfl⟩) ⟨nofun, nofun⟩
    exact Takes.bind_pure (htakes.mono fun _ _ h => ⟨h, fun _ => rfl⟩)
  case replicasUnderConstruction kind =>
    have htakes : Takes rows (lockReplicas kind resolved.blocks .replicasUnderConstruction) fun _ l =>
        rows.InOrder none [.replicaUnderConstruction] l :=
      lockReplicas_takes hrows (fun _ _ => key_of_replicaUnderConstruction) (fun _ _ => ⟨rfl, rfl⟩)
        ⟨nofun, nofun⟩
    exact Takes.bind_pure (htakes.mono fun _ _ h => ⟨h, fun _ => rfl⟩)
  case registers kind registers =>
    exact Takes.bind_pure ((lockRegisters_takes hrows).mono fun _ _ h => ⟨h, fun _ => rfl⟩)

theorem acquireAll_takes {requests : List LockRequest} (hrows : rows.Hierarchy)
    (hsorted : requests.Pairwise fun q q' => Ranked.Before q.category q'.category) :
    Takes rows (requests.foldlM acquireOne resolved) fun resolved' l =>
      rows.InOrder (LockRequest.strayOf? requests resolved') (requests.map LockRequest.category) l ∧
        ((∀ q ∈ requests, q.category ≠ .node) → resolved'.chain = resolved.chain) := by
  induction requests generalizing resolved
  case nil => exact .pure ⟨.nil, fun _ => rfl⟩
  case cons q requests ih =>
    obtain ⟨hq, hsorted⟩ := List.pairwise_cons.mp hsorted
    rw [List.foldlM_cons]
    refine (acquireOne_takes hrows).bind fun resolved₁ l h => (ih hsorted).mono fun resolved₂ l' h' => ?_
    obtain ⟨hl, hchain⟩ := h
    obtain ⟨hl', hchain'⟩ := h'
    refine ⟨?_, fun hall => (hchain' fun q hq => hall q (List.mem_cons_of_mem _ hq)).trans
      (hchain (hall q List.mem_cons_self))⟩
    have hbefore : ∀ c ∈ [q.category], ∀ c' ∈ requests.map LockRequest.category, c.order < c'.order := by
      intro c hc c' hc'
      cases List.mem_singleton.mp hc
      obtain ⟨q', hq', rfl⟩ := List.mem_map.mp hc'
      simpa [Ranked.Before, Ranked.rank, List.cons_lt_cons_iff] using hq q' hq'
    by_cases hnode : q.category = .node
    case pos =>
      have hnone : ∀ q' ∈ requests, q'.category ≠ .node := fun q' hq' heq =>
        (hq q' hq').ne (hnode.trans heq.symm)
      rw [LockRequest.strayOf?_cons_of_forall_ne hnone, LockRequest.stray?_congr (hchain' hnone)]
      refine hl.append (hl'.of_stray fun hmem => ?_) hbefore
      obtain ⟨q', hq', heq⟩ := List.mem_map.mp hmem
      exact hnone q' hq' heq
    case neg =>
      rw [LockRequest.strayOf?_cons_of_ne hnode]
      exact (hl.of_stray fun hmem => hnode (List.mem_singleton.mp hmem).symm).append hl' hbefore

theorem acquire_takes {requests : RequestSet} (hrows : rows.Hierarchy) :
    Takes rows (acquire requests) fun resolved l =>
      rows.InOrder (LockRequest.strayOf? requests.toList resolved)
        (requests.toList.map LockRequest.category) l := by
  rw [acquire]
  refine Takes.ofExcept.bind fun _ l hl => ?_
  subst hl
  exact (acquireAll_takes hrows requests.sorted).mono fun _ _ h => h.1

end Action

end NamespaceService
