import NamespaceService.Proofs.Transaction.Grants
import NamespaceService.Proofs.Transaction.Retaining

namespace NamespaceService

open Program

variable {rows : Rows} {c : Context} {finder : Finder} {kind : LockKind} {row : Row}

namespace Rows

-- Where all rows of a list are of one kind, none is lost when they are taken for it.
theorem map_filterMap_typed {T : Type} {get : Row → Option T} {put : T → Row} {l : List Row}
    (h : ∀ row ∈ l, (get row).map put = some row) : (l.filterMap get).map put = l := by
  rw [List.map_filterMap, List.filterMap_congr h, List.filterMap_some]

theorem filter_lookupList {f g : Finder} : (rows.lookupList f).filter g.lists =
    if f = g then rows.lookupList f else [] := by
  split
  case isTrue heq =>
    subst heq
    exact List.filter_eq_self.mpr fun row hrow => (mem_lookupList_iff.mp hrow).2
  case isFalse hne =>
    refine List.filter_eq_nil_iff.mpr fun row hrow hlists => hne ?_
    have hfinder := Row.lists_iff.mp (mem_lookupList_iff.mp hrow).2
    exact Option.some.inj (hfinder.symm.trans (Row.lists_iff.mp hlists))

-- Of lists that are found one after another, each can be told from the others.
theorem filter_flatMap_lookupList {ι : Type} {finder : ι → Finder} {ids : List ι} {id : ι}
    (hids : ids.Nodup) (hinj : finder.Injective) (hid : id ∈ ids) :
    (ids.flatMap fun i => rows.lookupList (finder i)).filter (finder id).lists =
      rows.lookupList (finder id) := by
  obtain ⟨before, after, rfl⟩ := List.append_of_mem hid
  obtain ⟨-, hlater, hapart⟩ := List.nodup_append.mp hids
  have hother {l : List ι} (hl : ∀ i ∈ l, i ≠ id) :
      l.flatMap (fun i => (rows.lookupList (finder i)).filter (finder id).lists) = [] :=
    List.flatMap_eq_nil_iff.mpr fun i hi => filter_lookupList.trans (if_neg (hinj.ne (hl i hi)))
  rw [List.filter_flatMap, List.flatMap_append, List.flatMap_cons,
    hother fun i hi => hapart i hi id List.mem_cons_self,
    hother fun i hi heq => (List.nodup_cons.mp hlater).1 (heq ▸ hi), filter_lookupList, if_pos rfl,
    List.nil_append, List.append_nil]

end Rows

namespace Finder

theorem node_of_lists {dir : NodeId} (h : (children dir).lists row) :
    row.node?.map .node = some row := by
  cases row
  case node => rfl
  all_goals cases h

theorem block_of_lists {file : NodeId} (h : (blocksOf file).lists row) :
    row.block?.map .block = some row := by
  cases row
  case block => rfl
  all_goals cases h

theorem replica_of_lists {id : BlockId} (h : (replicas id).lists row) :
    row.replica?.map .replica = some row := by
  cases row
  case replica => rfl
  all_goals cases h

theorem replica_of_lists_underConstruction {id : BlockId}
    (h : (replicasUnderConstruction id).lists row) : row.replica?.map .replica = some row := by
  cases row
  case replica => rfl
  all_goals cases h

end Finder

-- The nodes that a walk has locked so far are known.
def Context.KeepsAt (c : Context) (locked : LockedAt) : Prop :=
  ∀ {p : Position} {n : Node}, locked p = some n → c.Keeps (.node n)

theorem LockedAt.mem_chainTo {locked : LockedAt} {path : Position} {n : Node}
    (h : n ∈ locked.chainTo path) : ∃ p, locked p = some n := by
  obtain ⟨found, hfound, rfl⟩ := List.mem_filterMap.mp h
  obtain ⟨p, -, hp⟩ := List.mem_map.mp ((List.takeWhile_sublist _).subset hfound)
  exact ⟨p, hp⟩

namespace Action

variable {mode : NodeMode}

theorem lockNode_informs (hnames : NamesApart rows.find?) :
    Informs rows (lockNode kind finder) fun found c => ∀ n, found = some n → c.Keeps (.node n) := by
  refine .bind_pure hnames ((Informs.lockFind hnames).mono fun found c hc hfound n hn => ?_)
  obtain ⟨row, rfl, hrow⟩ := Option.bind_eq_some_iff.mp hn
  cases row <;> cases hrow
  exact hc.keeps_of_answer hfound

theorem lockPosition_informs {paths rest : List Position} {locked : LockedAt} {here : Position}
    (hnames : NamesApart rows.find?) : Informs rows (lockPosition mode paths locked here rest)
      fun locked' c => c.KeepsAt locked → c.KeepsAt locked' := by
  rw [lockPosition]
  split
  case h_2 => exact .pure fun _ _ => id
  case h_1 =>
    refine (Informs.of_reading settleKind_reading).bind hnames fun kind? => ?_
    split
    case h_2 => exact .pure fun _ _ _ => id
    case h_1 =>
      refine (lockNode_informs hnames).bind hnames fun node? => ?_
      split
      case h_2 => exact .pure fun _ _ _ _ => id
      case h_1 node =>
        refine (Informs.of_reading noteDeadEnd_reading).bind hnames fun _ => ?_
        refine .pure fun c _ _ hnode _ hlocked p n hn => ?_
        rw [LockedAt.set] at hn
        split at hn
        case isTrue =>
          cases hn
          exact hnode _ rfl
        case isFalse => exact hlocked hn

theorem walk_informs {paths rest : List Position} {locked : LockedAt}
    (hnames : NamesApart rows.find?) : Informs rows (walk mode paths locked rest)
      fun locked' c => c.KeepsAt locked → c.KeepsAt locked' := by
  induction rest generalizing locked
  case nil => exact .pure fun _ _ => id
  case cons here rest ih =>
    refine (lockPosition_informs hnames).bind hnames fun locked₁ => ih.mono ?_
    exact fun _ _ _ hrest hfirst hlocked => hrest (hfirst hlocked)

theorem lockPaths_informs {paths : List String} (hnames : NamesApart rows.find?) :
    Informs rows (lockPaths mode paths) fun chains c =>
      ∀ path ∈ chains.toList, ∀ n ∈ path.2, c.Keeps (.node n) := by
  refine (Informs.of_reading (.ofExcept fun _ => parsed_fails)).bind hnames fun parsed => ?_
  refine (walk_informs hnames).bind hnames fun locked => ?_
  refine (Informs.of_reading (.forM fun _ => .log)).bind hnames fun _ => ?_
  refine .pure fun c _ _ hlocked _ path hpath n hn => ?_
  obtain ⟨⟨text, names⟩, -, rfl⟩ := List.mem_map.mp (SortedBy.mem_of_mem_ofList hpath)
  obtain ⟨p, hp⟩ := LockedAt.mem_chainTo hn
  exact hlocked nofun hp

theorem lockChainFrom_informs {levels level : Nat} {leafIsDirectory : Bool} {parent : Option Node}
    {chain : List Node} (hnames : NamesApart rows.find?) :
    Informs rows (lockChainFrom mode levels leafIsDirectory level parent chain) fun found c =>
      ∀ n ∈ found, c.Keeps (.node n) := by
  induction chain generalizing level parent
  case nil => exact .pure fun _ _ => nofun
  case cons expected rest ih =>
    rw [lockChainFrom]
    refine (lockNode_informs hnames).bind hnames fun node? => ?_
    split
    case h_1 =>
      exact (Informs.of_reading .log).bind hnames fun _ => .pure fun _ _ _ _ => nofun
    case h_2 node =>
      split
      case isFalse =>
        exact (Informs.of_reading .log).bind hnames fun _ => .pure fun _ _ _ _ => nofun
      case isTrue =>
        exact .bind_pure hnames (ih.mono fun _ _ _ hrest hnode =>
          List.forall_mem_cons.mpr ⟨hnode node rfl, hrest⟩)

theorem lockChildren_informs {directories : List NodeId} (hnames : NamesApart rows.find?) :
    Informs rows (lockChildren directories) fun found c => ∀ entries ∈ found,
      c.knownList? (.children entries.1) = some (entries.2.map .node) := by
  refine .mapM_forall hnames fun dir => .lockListAlike hnames fun found => .pure fun c hc hfound => ?_
  rw [hfound, Rows.map_filterMap_typed fun row hrow => ?_]
  rw [hc.toReflects.knownList? hfound] at hrow
  exact Finder.node_of_lists (Rows.mem_lookupList_iff.mp hrow).2

-- Lists that are looked up one after another are all known, and each can be told from the others.
theorem mapM_lockList_informs {ι : Type} {finder : ι → Finder} {ids : List ι}
    (hnames : NamesApart rows.find?) (hids : ids.Nodup) (hinj : finder.Injective) :
    Informs rows (ids.mapM fun id => lockList kind (finder id)) fun found c =>
      (∀ row ∈ found.flatten, c.Keeps row ∧ ∃ id, (finder id).lists row) ∧
        ∀ id ∈ ids, c.knownList? (finder id) = some (found.flatten.filter (finder id).lists) := by
  refine (Informs.mapM hnames fun id => .lockList hnames).mono fun found c hc hfound => ?_
  have hlists : found.flatten = ids.flatMap (fun id => rows.lookupList (finder id)) ∧
      ∀ id ∈ ids, c.knownList? (finder id) = some (rows.lookupList (finder id)) := by
    clear hids
    induction hfound
    case nil => simp
    case cons hfirst _ ih =>
      rw [List.flatten_cons, List.flatMap_cons, ← hc.toReflects.knownList? hfirst, ih.1]
      exact ⟨rfl, List.forall_mem_cons.mpr ⟨hfirst.trans (hc.toReflects.knownList? hfirst ▸ rfl), ih.2⟩⟩
  obtain ⟨hflatten, hknown⟩ := hlists
  rw [hflatten]
  refine ⟨fun row hrow => ?_, fun id hid => ?_⟩
  · obtain ⟨id, hid, hrow⟩ := List.mem_flatMap.mp hrow
    exact ⟨hc.keeps_of_list (hknown id hid) hrow, id, (Rows.mem_lookupList_iff.mp hrow).2⟩
  · rw [Rows.filter_flatMap_lookupList hids hinj hid, hknown id hid]

theorem lockBlock_informs {id : BlockId} {owner : NodeId} {files : List NodeId}
    (hnames : NamesApart rows.find?) :
    Informs rows (lockBlocks kind (.byId id owner) files) fun blocks c =>
      (c.knownAnswer? (.block id)).isSome ∧
        ∀ b ∈ blocks, c.Keeps (.block b) ∨ b = .absent id owner ∧ rows.find? (.block id) = none := by
  refine .bind_pure hnames ((Informs.lockFind hnames).mono fun found c hc hfound => ?_)
  refine ⟨by rw [hfound]; rfl, fun b hb => ?_⟩
  obtain rfl := List.mem_singleton.mp hb
  cases hc.knownAnswer? hfound
  cases hlookup : rows.lookup (.block id)
  case none => exact .inr ⟨rfl, (Rows.lookup_of_key? rfl).symm.trans hlookup⟩
  case some row =>
    have hkey := Finder.key_of_selects rfl (Rows.mem_of_lookup hlookup).2
    rw [hlookup] at hfound
    cases row
    case block b => exact .inl (hc.keeps_of_answer hfound)
    case replica r =>
      rw [Row.key] at hkey
      split at hkey <;> cases hkey
    all_goals cases hkey

theorem lockBlocksOf_informs {files : List NodeId} (hnames : NamesApart rows.find?)
    (hfiles : files.Nodup) : Informs rows (lockBlocks kind .ofResolvedFiles files) fun blocks c =>
      (∀ b ∈ blocks, c.Keeps (.block b)) ∧ ∀ file ∈ files, c.knownList? (.blocksOf file) =
        some ((blocks.map .block).filter (Finder.blocksOf file).lists) := by
  refine .bind_pure hnames ((mapM_lockList_informs hnames hfiles fun _ _ => Finder.blocksOf.inj).mono ?_)
  rintro found c hc ⟨hrows, hlists⟩
  have htyped : (found.flatten.filterMap Row.block?).map .block = found.flatten :=
    Rows.map_filterMap_typed fun row hrow => Finder.block_of_lists (hrows row hrow).2.choose_spec
  refine ⟨fun b hb => (hrows _ ?_).1, fun file hfile => by rw [htyped, hlists file hfile]⟩
  exact htyped ▸ List.mem_map_of_mem hb

theorem lockReplicas_informs {blocks : List Block} {finder : BlockId → Finder}
    (hnames : NamesApart rows.find?) (hinj : finder.Injective)
    (htyped : ∀ {row : Row} {id : BlockId}, (finder id).lists row →
      row.replica?.map .replica = some row) :
    Informs rows (lockReplicas kind blocks finder) fun replicas c =>
      (∀ replica ∈ replicas, c.Keeps (.replica replica)) ∧ ∀ b ∈ blocks, ¬b.placeholder →
        c.knownList? (finder b.id) = some ((replicas.map .replica).filter (finder b.id).lists) := by
  refine .bind_pure hnames
    ((mapM_lockList_informs hnames (SortedBy.nodup_toList _) hinj).mono ?_)
  rintro found c hc ⟨hrows, hlists⟩
  have hfound : (found.flatten.filterMap Row.replica?).map .replica = found.flatten :=
    Rows.map_filterMap_typed fun row hrow => htyped (hrows row hrow).2.choose_spec
  refine ⟨fun replica hreplica => (hrows _ ?_).1, fun b hb hplaceholder => ?_⟩
  · exact hfound ▸ List.mem_map_of_mem hreplica
  · rw [hfound]
    refine hlists b.id (SortedBy.mem_ofList_iff.mpr ?_)
    exact List.mem_map_of_mem (List.mem_filter.mpr ⟨hb, by simpa using hplaceholder⟩)

theorem lockRegisters_informs {registers : List Register} (hnames : NamesApart rows.find?) :
    Informs rows (lockRegisters kind registers) fun entries c =>
      (∀ entry ∈ entries, c.Keeps (.register entry)) ∧
        ∀ name ∈ registers, (c.knownAnswer? (.register name)).isSome := by
  refine .bind_pure hnames
    ((Informs.mapM hnames fun name => .lockFind hnames).mono fun found c hc hfound => ?_)
  have hanswers {names : List Register}
      (h : List.Forall₂ (fun name answer => c.knownAnswer? (.register name) = some answer) names found) :
      (∀ answer ∈ found, ∃ finder, c.knownAnswer? finder = some answer) ∧
        ∀ name ∈ names, (c.knownAnswer? (.register name)).isSome := by
    clear hfound
    induction h
    case nil => exact ⟨nofun, nofun⟩
    case cons hfirst _ ih =>
      refine ⟨List.forall_mem_cons.mpr ⟨⟨_, hfirst⟩, ih.1⟩, List.forall_mem_cons.mpr ⟨?_, ih.2⟩⟩
      rw [hfirst]
      rfl
  obtain ⟨hfinders, hknown⟩ := hanswers hfound
  refine ⟨fun entry hentry => ?_, fun name hname => hknown name (SortedBy.mem_ofList_iff.mpr hname)⟩
  obtain ⟨answer, hanswer, hentry⟩ := List.mem_filterMap.mp hentry
  obtain ⟨row, rfl, hrow⟩ := Option.bind_eq_some_iff.mp hentry
  obtain ⟨finder, hfinder⟩ := hfinders _ hanswer
  cases row <;> cases hrow
  exact hc.keeps_of_answer hfinder

end Action

namespace Resolved

variable {r r' : Resolved} {category category' : Category}

-- The row has been found by the request of a category.
inductive Includes (r : Resolved) : Category → Row → Prop
  | onPath {path : String × List Node} {n : Node} (h : path ∈ r.paths.toList) (hn : n ∈ path.2) :
    Includes r .node (.node n)
  | onChain {n : Node} (h : n ∈ r.chain) : Includes r .node (.node n)
  | entry {entries : NodeId × List Node} {n : Node} (h : entries ∈ r.children.toList)
    (hn : n ∈ entries.2) : Includes r .node (.node n)
  | block {b : Block} (h : b ∈ r.blocks) : Includes r .block (.block b)
  | lease {l : Lease} (h : l ∈ r.leases) : Includes r .lease (.lease l)
  | replica {replica : Replica} (h : replica ∈ r.replicas) : Includes r .replica (.replica replica)
  | replicaUnderConstruction {replica : Replica} (h : replica ∈ r.replicasUnderConstruction) :
    Includes r .replicaUnderConstruction (.replica replica)
  | register {entry : RegisterValue} (h : entry ∈ r.registers) : Includes r .register (.register entry)

def without (r : Resolved) : Category → Resolved
  | .node => { r with paths := .empty, chain := [], children := .empty }
  | .block => { r with blocks := [] }
  | .lease => { r with leases := [] }
  | .replica => { r with replicas := [] }
  | .replicaUnderConstruction => { r with replicasUnderConstruction := [] }
  | .register => { r with registers := [] }

-- Nothing else is changed by the request of a category.
structure SameBeside (r : Resolved) (category : Category) (r' : Resolved) : Prop where
  paths : category ≠ .node → r'.paths = r.paths
  chain : category ≠ .node → r'.chain = r.chain
  children : category ≠ .node → r'.children = r.children
  blocks : category ≠ .block → r'.blocks = r.blocks
  leases : category ≠ .lease → r'.leases = r.leases
  replicas : category ≠ .replica → r'.replicas = r.replicas
  replicasUnderConstruction : category ≠ .replicaUnderConstruction →
    r'.replicasUnderConstruction = r.replicasUnderConstruction
  registers : category ≠ .register → r'.registers = r.registers

namespace SameBeside

theorem of_without (h : r'.without category = r.without category) : r.SameBeside category r' := by
  cases category
  all_goals
    simp only [without, Resolved.mk.injEq] at h
    constructor <;> simp [h]

theorem files (h : r.SameBeside category r') (hne : category ≠ .node) : r'.files = r.files := by
  have hpaths := h.paths hne
  have hchain := h.chain hne
  cases r
  cases r'
  cases hpaths
  cases hchain
  rfl

theorem includes (h : r.SameBeside category r') (hne : category ≠ category')
    (hrow : r'.Includes category' row) : r.Includes category' row := by
  cases hrow
  case onPath hpath hn => exact .onPath (h.paths hne ▸ hpath) hn
  case onChain hn => exact .onChain (h.chain hne ▸ hn)
  case entry hentries hn => exact .entry (h.children hne ▸ hentries) hn
  case block hb => exact .block (h.blocks hne ▸ hb)
  case lease hl => exact .lease (h.leases hne ▸ hl)
  case replica hreplica => exact .replica (h.replicas hne ▸ hreplica)
  case replicaUnderConstruction hreplica =>
    exact .replicaUnderConstruction (h.replicasUnderConstruction hne ▸ hreplica)
  case register hentry => exact .register (h.registers hne ▸ hentry)

end SameBeside

end Resolved

namespace LockRequest

variable {request : LockRequest} {r r' : Resolved} {category : Category}

-- What is known of a request that has been taken.
def Recalled (r : Resolved) (c : Context) : LockRequest → Prop
  | .nodes .. => True
  | .blocks _ (.byId id _) => (c.knownAnswer? (.block id)).isSome
  | .blocks _ .ofResolvedFiles => ∀ file ∈ r.files, c.knownList? (.blocksOf file) =
      some ((r.blocks.map .block).filter (Finder.blocksOf file).lists)
  | .lease _ holder => (c.knownAnswer? (.lease holder)).isSome
  | .replicas _ => ∀ b ∈ r.blocks, ¬b.placeholder → c.knownList? (.replicas b.id) =
      some ((r.replicas.map .replica).filter (Finder.replicas b.id).lists)
  | .replicasUnderConstruction _ => ∀ b ∈ r.blocks, ¬b.placeholder →
      c.knownList? (.replicasUnderConstruction b.id) =
        some ((r.replicasUnderConstruction.map .replica).filter
          (Finder.replicasUnderConstruction b.id).lists)
  | .registers _ names => ∀ name ∈ names, (c.knownAnswer? (.register name)).isSome

-- Requests that come later do not matter to it.
theorem Recalled.later (h : request.Recalled r c) (hsame : r.SameBeside category r')
    (hbefore : Ranked.Before request.category category) : request.Recalled r' c := by
  have hother (self other : Category) (hself : request.category = self)
      (h : ¬Ranked.Before self other) : category ≠ other := by
    rintro rfl
    exact h (hself ▸ hbefore)
  cases request
  case blocks kind target =>
    cases target
    case byId => exact h
    case ofResolvedFiles =>
      rw [Recalled, hsame.files (hother .block .node rfl (by decide)),
        hsame.blocks (hother .block .block rfl (by decide))]
      exact h
  case replicas =>
    rw [Recalled, hsame.blocks (hother .replica .block rfl (by decide)),
      hsame.replicas (hother .replica .replica rfl (by decide))]
    exact h
  case replicasUnderConstruction =>
    rw [Recalled, hsame.blocks (hother .replicaUnderConstruction .block rfl (by decide)),
      hsame.replicasUnderConstruction (hother .replicaUnderConstruction _ rfl (by decide))]
    exact h
  all_goals exact h

-- The row stands for a requested block that the store does not hold.
def Misses (rows : Rows) (request : LockRequest) (row : Row) : Prop :=
  ∃ kind id owner, request = .blocks kind (.byId id owner) ∧ row = .block (.absent id owner) ∧
    rows.find? (.block id) = none

-- What is found by taking a request is known.
structure Adds (rows : Rows) (request : LockRequest) (r r' : Resolved) (c : Context) : Prop where
  row {row : Row} : r'.Includes request.category row →
    r.Includes request.category row ∨ c.Keeps row ∨ request.Misses rows row
  children {entries : NodeId × List Node} : entries ∈ r'.children.toList →
    entries ∈ r.children.toList ∨
      c.knownList? (.children entries.1) = some (entries.2.map .node)
  recalled : request.Recalled r' c
  same : r.SameBeside request.category r'

end LockRequest

namespace Action

open Context

theorem acquireNodes_informs {mode : NodeMode} {target : NodeTarget} {r : Resolved}
    (hnames : NamesApart rows.find?) :
    Informs rows (acquireOne r (.nodes mode target)) fun r' c =>
      LockRequest.Adds rows (.nodes mode target) r r' c := by
  cases target
  case chain chain =>
    refine .bind_pure hnames ((lockChainFrom_informs hnames).mono fun found c _ hfound => ?_)
    refine ⟨fun hrow => ?_, .inl, trivial, .of_without rfl⟩
    cases hrow
    case onPath hpath hn => exact .inl (.onPath hpath hn)
    case onChain hn => exact .inr (.inl (hfound _ hn))
    case entry hentries hn => exact .inl (.entry hentries hn)
  case paths paths children =>
    refine (lockPaths_informs hnames).bind hnames fun chains => ?_
    split
    case isTrue =>
      refine .bind_pure hnames ((lockChildren_informs hnames).mono fun found c hc hfound hchains => ?_)
      have hchildren {entries : NodeId × List Node}
          (h : entries ∈ (SortedBy.ofList found : SortedBy Prod.fst).toList) :
          c.knownList? (.children entries.1) = some (entries.2.map .node) :=
        hfound entries (SortedBy.mem_of_mem_ofList h)
      refine ⟨fun hrow => ?_, fun h => .inr (hchildren h), trivial, .of_without rfl⟩
      cases hrow
      case onPath hpath hn => exact .inr (.inl (hchains _ hpath _ hn))
      case onChain hn => exact .inl (.onChain hn)
      case entry hentries hn =>
        exact .inr (.inl (hc.keeps_of_list (hchildren hentries) (List.mem_map_of_mem hn)))
    case isFalse =>
      refine .pure fun c _ hchains => ⟨fun hrow => ?_, .inl, trivial, .of_without rfl⟩
      cases hrow
      case onPath hpath hn => exact .inr (.inl (hchains _ hpath _ hn))
      case onChain hn => exact .inl (.onChain hn)
      case entry hentries hn => exact .inl (.entry hentries hn)

theorem acquireBlocks_informs {target : BlockTarget} {r : Resolved} (hnames : NamesApart rows.find?) :
    Informs rows (acquireOne r (.blocks kind target)) fun r' c =>
      LockRequest.Adds rows (.blocks kind target) r r' c := by
  cases target
  case byId id owner =>
    refine .bind_pure hnames ((lockBlock_informs hnames).mono fun blocks c _ hblocks => ?_)
    refine ⟨fun hrow => ?_, .inl, hblocks.1, .of_without rfl⟩
    cases hrow
    case block b hb =>
      refine .inr ((hblocks.2 b hb).imp_right ?_)
      rintro ⟨rfl, hnone⟩
      exact ⟨kind, id, owner, rfl, rfl, hnone⟩
  case ofResolvedFiles =>
    refine .bind_pure hnames ((lockBlocksOf_informs hnames ?_).mono fun blocks c _ hblocks => ?_)
    · exact SortedBy.nodup_toList _
    refine ⟨fun hrow => ?_, .inl, hblocks.2, .of_without rfl⟩
    cases hrow
    case block b hb => exact .inr (.inl (hblocks.1 b hb))

theorem acquireOne_informs {request : LockRequest} {r : Resolved} (hnames : NamesApart rows.find?) :
    Informs rows (acquireOne r request) fun r' c => request.Adds rows r r' c := by
  cases request
  case nodes => exact acquireNodes_informs hnames
  case blocks => exact acquireBlocks_informs hnames
  case lease kind holder =>
    refine .bind_pure hnames ((Informs.lockFind hnames).mono fun found c hc hfound => ?_)
    refine ⟨fun hrow => ?_, .inl, by rw [LockRequest.Recalled, hfound]; rfl, .of_without rfl⟩
    cases hrow
    case lease l hl =>
      obtain ⟨row, rfl, hrow⟩ := Option.bind_eq_some_iff.mp (Option.mem_toList.mp hl)
      cases row <;> cases hrow
      exact .inr (.inl (hc.keeps_of_answer hfound))
  case replicas kind =>
    refine .bind_pure hnames ((lockReplicas_informs hnames (fun _ _ => Finder.replicas.inj)
      Finder.replica_of_lists).mono fun replicas c _ hreplicas => ?_)
    refine ⟨fun hrow => ?_, .inl, hreplicas.2, .of_without rfl⟩
    cases hrow
    case replica replica hreplica => exact .inr (.inl (hreplicas.1 replica hreplica))
  case replicasUnderConstruction kind =>
    refine .bind_pure hnames ((lockReplicas_informs hnames
      (fun _ _ => Finder.replicasUnderConstruction.inj)
      Finder.replica_of_lists_underConstruction).mono fun replicas c _ hreplicas => ?_)
    refine ⟨fun hrow => ?_, .inl, hreplicas.2, .of_without rfl⟩
    cases hrow
    case replicaUnderConstruction replica hreplica => exact .inr (.inl (hreplicas.1 replica hreplica))
  case registers kind names =>
    refine .bind_pure hnames ((lockRegisters_informs hnames).mono fun entries c _ hentries => ?_)
    refine ⟨fun hrow => ?_, .inl, hentries.2, .of_without rfl⟩
    cases hrow
    case register entry hentry => exact .inr (.inl (hentries.1 entry hentry))

end Action

namespace Context

variable {done : List LockRequest} {request : LockRequest} {r r' : Resolved} {found : List Row}

-- What is known of the requests that have been taken so far.
structure Remembers (rows : Rows) (done : List LockRequest) (r : Resolved) (c : Context) : Prop where
  row {category : Category} {row : Row} : r.Includes category row →
    c.Keeps row ∨ ∃ request ∈ done, request.Misses rows row
  children {entries : NodeId × List Node} : entries ∈ r.children.toList →
    c.knownList? (.children entries.1) = some (entries.2.map .node)
  recalled {request : LockRequest} : request ∈ done → request.Recalled r c

theorem Remembers.empty : c.Remembers rows [] .empty where
  row h := by cases h <;> contradiction
  children := nofun
  recalled := nofun

theorem Remembers.add (h : c.Remembers rows done r) (hadds : request.Adds rows r r' c)
    (hbefore : ∀ q ∈ done, Ranked.Before q.category request.category) :
    c.Remembers rows (done ++ [request]) r' where
  row {category row} hrow := by
    have hold (hrow : r.Includes category row) :
        c.Keeps row ∨ ∃ q ∈ done ++ [request], q.Misses rows row :=
      (h.row hrow).imp_right fun ⟨q, hq, hmisses⟩ => ⟨q, List.mem_append_left _ hq, hmisses⟩
    by_cases hcategory : request.category = category
    case neg => exact hold (hadds.same.includes hcategory hrow)
    case pos =>
      subst hcategory
      obtain hrow | hrow := hadds.row hrow
      · exact hold hrow
      · exact hrow.imp_right fun hmisses => ⟨request, by simp, hmisses⟩
  children hentries := (hadds.children hentries).elim h.children id
  recalled hq := by
    obtain hq | hq := List.mem_append.mp hq
    · exact (h.recalled hq).later hadds.same (hbefore _ hq)
    · obtain rfl := List.mem_singleton.mp hq
      exact hadds.recalled

-- The lookup gives this without a call of the store, and leaves the context as it is.
def ReadsRow (c : Context) (finder : Finder) (found : Option Row) : Prop :=
  ∀ w : World, (Action.find finder c).run w = some ((.ok found, c), w)

def ReadsList (c : Context) (finder : Finder) (found : List Row) : Prop :=
  ∀ w : World, (Action.findList finder c).run w = some ((.ok found, c), w)

theorem readsRow_of_known {found : Option Row} (h : c.knownAnswer? finder = some found) :
    c.ReadsRow finder found := by
  intro w
  rw [Action.find, Action.reading, h, run_done]

theorem readsList_of_known (h : c.knownList? finder = some found) : c.ReadsList finder found := by
  intro w
  rw [Action.findList, Action.reading, h, run_done]

end Context

theorem Action.acquire_informs {requests : RequestSet} (hnames : NamesApart rows.find?) :
    Informs rows (acquire requests) fun r c => c.Remembers rows requests.toList r := by
  refine (Informs.of_reading (.ofExcept fun _ => validate_fails)).bind hnames fun _ => ?_
  refine (Informs.foldlM (I := fun done r c => c.Remembers rows done r) hnames ?_).mono
    fun r c _ h _ => h .empty
  intro before request after r hsplit
  have hsorted := requests.sorted
  rw [hsplit] at hsorted
  have hbefore := (List.pairwise_append.mp hsorted).2.2
  exact (acquireOne_informs hnames).mono fun r' c _ hadds h =>
    h.add hadds fun q hq => hbefore q hq request List.mem_cons_self

-- Each row that was found is given by all lookups that find it, and each list that was found by its
-- lookup. What was asked for by its key can be read whether it is there or not.
structure Resolved.ReadsBack (rows : Rows) (requests : RequestSet) (r : Resolved) (c : Context) :
    Prop where
  row {category : Category} {row : Row} : r.Includes category row →
    row ∈ rows.toList ∧ (∀ finder, finder.selects row → c.ReadsRow finder (some row)) ∨
      ∃ request ∈ requests.toList, request.Misses rows row
  block {kind : LockKind} {id : BlockId} {owner : NodeId} :
    .blocks kind (.byId id owner) ∈ requests.toList → c.ReadsRow (.block id) (rows.find? (.block id))
  lease {kind : LockKind} {holder : String} : .lease kind holder ∈ requests.toList →
    c.ReadsRow (.lease holder) (rows.find? (.lease holder))
  register {kind : LockKind} {names : List Register} {name : Register} :
    .registers kind names ∈ requests.toList → name ∈ names →
      c.ReadsRow (.register name) (rows.find? (.register name))
  children {dir : NodeId} {nodes : List Node} : r.childrenOf? dir = some nodes →
    c.ReadsList (.children dir) (nodes.map .node)
  blocks {kind : LockKind} {file : NodeId} : .blocks kind .ofResolvedFiles ∈ requests.toList →
    file ∈ r.files →
      c.ReadsList (.blocksOf file) ((r.blocks.map .block).filter (Finder.blocksOf file).lists)
  replicas {kind : LockKind} {b : Block} : .replicas kind ∈ requests.toList → b ∈ r.blocks →
    ¬b.placeholder → c.ReadsList (.replicas b.id)
      ((r.replicas.map .replica).filter (Finder.replicas b.id).lists)
  replicasUnderConstruction {kind : LockKind} {b : Block} :
    .replicasUnderConstruction kind ∈ requests.toList → b ∈ r.blocks → ¬b.placeholder →
      c.ReadsList (.replicasUnderConstruction b.id)
        ((r.replicasUnderConstruction.map .replica).filter
          (Finder.replicasUnderConstruction b.id).lists)

namespace FreshRun

variable {requests : RequestSet} {r : Resolved}

-- The lock phase has come across each row by one lookup; the context knows the others.
theorem acquire_readsBack (a : FreshRun rows (Action.acquire requests))
    (hnames : NamesApart rows.find?) (hresult : a.result = .ok r) :
    r.ReadsBack rows requests a.context.endLockPhase := by
  have hrun := a.alone Action.acquire_reading.straight
  rw [hresult] at hrun
  have hnew : (Context.new a.tx).Informed rows := .new rows a.tx
  obtain ⟨hc, -⟩ := Action.acquire_reading.informed hnames hnew a.rows_eq hrun
  have h : a.context.Remembers rows requests.toList r :=
    (Action.acquire_informs hnames).tells hnew a.rows_eq hrun hc (.refl _)
  have hkeyed {finder : Finder} {key : Key} (hkey : finder.key? = some key)
      (hknown : (a.context.knownAnswer? finder).isSome) :
      a.context.endLockPhase.ReadsRow finder (rows.find? key) := by
    refine Context.readsRow_of_known ?_
    rw [← Rows.lookup_of_key? hkey]
    exact hc.answer hknown
  constructor
  case row =>
    intro category row hrow
    refine (h.row hrow).imp_left fun hkeeps => ⟨hc.mem hkeeps, fun finder hsel => ?_⟩
    exact Context.readsRow_of_known (hc.answer_of_keeps hkeeps hsel hnames)
  case block => exact fun hrequest => hkeyed rfl (h.recalled hrequest)
  case lease => exact fun hrequest => hkeyed rfl (h.recalled hrequest)
  case register => exact fun hrequest hname => hkeyed rfl (h.recalled hrequest _ hname)
  case children =>
    intro dir nodes hchildren
    obtain ⟨⟨_, _⟩, hfind, rfl⟩ := Option.map_eq_some_iff.mp hchildren
    obtain rfl := SortedBy.key_of_find? hfind
    exact Context.readsList_of_known (h.children (SortedBy.mem_of_find? hfind))
  case blocks =>
    exact fun hrequest hfile => Context.readsList_of_known (h.recalled hrequest _ hfile)
  case replicas =>
    exact fun hrequest hb hfinished => Context.readsList_of_known (h.recalled hrequest _ hb hfinished)
  case replicasUnderConstruction =>
    exact fun hrequest hb hfinished => Context.readsList_of_known (h.recalled hrequest _ hb hfinished)

-- A directory with a file, whose one block has a finished replica and one that is being written.
def stocked : Rows :=
  .ofList [.node .root, .node ⟨⟨1⟩, .root, "d", .directory, []⟩, .node ⟨⟨2⟩, ⟨1⟩, "f", .file, [⟨5⟩]⟩,
    .block (.fresh ⟨5⟩ ⟨2⟩ 1001), .replica ⟨⟨5⟩, "s", false⟩, .replica ⟨⟨5⟩, "t", true⟩,
    .lease ((Lease.new "c").withPath "/d/f")]

def stockedRequests : RequestSet :=
  .ofList [.nodes .read (.paths ["/d", "/d/f"] true), .blocks .read .ofResolvedFiles, .lease .write "c",
    .replicas .read, .replicasUnderConstruction .read, .registers .write [.generationStamp]]

-- The file was found by its name and in its directory, and is read by its id. Another block is
-- requested by its id and is missing.
theorem acquire_readsBack_stocked : NamesApart stocked.find? ∧
    (∃ (a : FreshRun stocked (Action.acquire stockedRequests)) (r : Resolved), a.result = .ok r ∧
      r.ReadsBack stocked stockedRequests a.context.endLockPhase ∧
      a.context.endLockPhase.ReadsRow (.node ⟨2⟩) (some (.node ⟨⟨2⟩, ⟨1⟩, "f", .file, [⟨5⟩]⟩)) ∧
      a.context.endLockPhase.ReadsList (.replicas ⟨5⟩) [.replica ⟨⟨5⟩, "s", false⟩]) ∧
    ∃ (a : FreshRun stocked (Action.acquire (.ofList [.blocks .write (.byId ⟨6⟩ ⟨2⟩)]))),
      a.context.endLockPhase.ReadsRow (.block ⟨6⟩) none := by
  have hnames : NamesApart stocked.find? := by decide +kernel
  refine ⟨hnames, ?_, ?_⟩
  · obtain ⟨a, -, -, hcheck⟩ := exists_checked 1 _ (unused_rows stocked)
      (m := Action.acquire stockedRequests) (fun result _ _ => match result with
        | .ok r => r.childrenOf? ⟨1⟩ = some [⟨⟨2⟩, ⟨1⟩, "f", .file, [⟨5⟩]⟩] &&
          r.blocks = [.fresh ⟨5⟩ ⟨2⟩ 1001] && r.replicas = [⟨⟨5⟩, "s", false⟩]
        | .error _ => false) (by decide +kernel)
    split at hcheck
    case h_2 => cases hcheck
    case h_1 r hresult =>
      simp only [Bool.and_eq_true, decide_eq_true_eq] at hcheck
      obtain ⟨⟨hchildren, hblocks⟩, hreplicas⟩ := hcheck
      have h := a.acquire_readsBack hnames hresult
      obtain ⟨entries, hfind, hentries⟩ := Option.map_eq_some_iff.mp hchildren
      refine ⟨a, r, hresult, h, ?_, ?_⟩
      · have hfile : r.Includes .node (.node ⟨⟨2⟩, ⟨1⟩, "f", .file, [⟨5⟩]⟩) :=
          .entry (SortedBy.mem_of_find? hfind) (by simp [hentries])
        obtain ⟨-, hreads⟩ | ⟨_, -, _, _, _, -, hblock, -⟩ := h.row hfile
        · exact hreads (.node ⟨2⟩) (by decide)
        · cases hblock
      · have hrequest : .replicas .read ∈ stockedRequests.toList := by decide
        have hb : .fresh ⟨5⟩ ⟨2⟩ 1001 ∈ r.blocks := by simp [hblocks]
        have hlist := h.replicas hrequest hb (by decide)
        rwa [hreplicas] at hlist
  · obtain ⟨a, -, -, hcheck⟩ := exists_checked 1 _ (unused_rows stocked)
      (m := Action.acquire (.ofList [.blocks .write (.byId ⟨6⟩ ⟨2⟩)]))
      (fun result _ _ => result.isOk) (by decide +kernel)
    cases hresult : a.result
    case error => simp [hresult, Except.isOk, Except.toBool] at hcheck
    case ok r => exact ⟨a, (a.acquire_readsBack hnames hresult).block (List.mem_singleton.mpr rfl)⟩

end FreshRun

end NamespaceService
