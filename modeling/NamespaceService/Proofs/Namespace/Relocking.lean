import NamespaceService.Proofs.Namespace.Modes
import NamespaceService.Proofs.Namespace.Walks

namespace NamespaceService

namespace LockSet

variable {locks : LockSet} {asks : List (Node × LockKind)} {n : Node} {kind : LockKind}

-- What is left to lock of these nodes, if they are asked for one after another.
def missing : (locks : LockSet) → (asks : List (Node × LockKind)) → List (Node × LockKind)
  | _, [] => []
  | locks, (n, kind) :: asks =>
    if locks.holds (.node n.id) kind then missing locks asks
    else (n, kind) :: missing (locks.record (.node n.id) kind) asks

theorem missing_of_held (h : locks.holds (.node n.id) kind) :
    locks.missing ((n, kind) :: asks) = locks.missing asks :=
  if_pos h

theorem missing_of_not_held (h : ¬locks.holds (.node n.id) kind) :
    locks.missing ((n, kind) :: asks) =
      (n, kind) :: (locks.record (.node n.id) kind).missing asks :=
  if_neg h

-- All of it, if no node is asked for twice and none is held.
theorem missing_eq_self (hnodup : ((asks.map Prod.fst).map Node.id).Nodup)
    (hfree : ∀ ask ∈ asks, ∀ kind, ¬locks.holds (.node ask.1.id) kind) :
    locks.missing asks = asks := by
  induction asks generalizing locks
  case nil => rfl
  case cons ask asks ih =>
    obtain ⟨hfirst, hnodup⟩ := List.nodup_cons.mp hnodup
    rw [missing_of_not_held (hfree ask List.mem_cons_self ask.2), ih hnodup]
    intro other hother kind hheld
    obtain hheld | ⟨heq, -⟩ := holds_record_iff.mp hheld
    · exact hfree other (List.mem_cons_of_mem _ hother) kind hheld
    · exact hfirst (List.mem_map.mpr ⟨_, List.mem_map_of_mem hother, (Key.node.inj heq).symm⟩)

end LockSet

-- The kinds at which a chain locks these nodes, of which the first one is at `level`.
def NodeMode.along (mode : NodeMode) (levels : Nat) (leafIsDirectory : Bool) (level : Nat)
    (nodes : List Node) : List (Node × LockKind) :=
  nodes.mapIdx fun i n => (n, mode.kindAt (level + i) levels leafIsDirectory)

-- The kinds at which a chain locks the nodes of it that are there.
def NodeMode.onChain (mode : NodeMode) (chain nodes : List Node) : List (Node × LockKind) :=
  mode.along chain.length ((chain.getLast?.map Node.isDirectory).getD false) 0 nodes

namespace NodeMode

variable {mode : NodeMode} {levels level : Nat} {leafIsDirectory : Bool} {n : Node} {nodes : List Node}

theorem along_cons : mode.along levels leafIsDirectory level (n :: nodes) =
    (n, mode.kindAt level levels leafIsDirectory) ::
      mode.along levels leafIsDirectory (level + 1) nodes := by
  simp [along, List.mapIdx_cons, Nat.add_assoc, Nat.add_comm 1]

theorem along_map_fst : (mode.along levels leafIsDirectory level nodes).map Prod.fst = nodes := by
  induction nodes generalizing level
  case nil => rfl
  case cons n nodes ih => rw [along_cons, List.map_cons, ih]

theorem onChain_map_fst {chain : List Node} : (mode.onChain chain nodes).map Prod.fst = nodes :=
  along_map_fst

theorem strongest?_singleton {names : Position} {i : Nat} (hi : i ≤ names.length)
    (isDirectory : Bool) : mode.strongest? [names] (names.take i) isDirectory =
      some (mode.kindAt i (names.length + 1) isDirectory) := by
  simp [strongest?, List.isPrefixOf_iff_prefix.mpr (List.take_prefix i names), Nat.min_eq_left hi]

end NodeMode

namespace Rows

open NamespaceService.Action

variable {rows : Rows} {mode : NodeMode} {p names : Position} {parent : Option Node}
  {expected first m n : Node} {chain cached found rest : List Node}

-- The part of a chain that is where the chain has it, as it is now.
def inPlace (rows : Rows) : (parent : Option Node) → (chain : List Node) → List Node
  | _, [] => []
  | parent, expected :: rest =>
    match rows.node? (.node expected.id) with
    | some n => if isInPlace parent expected n then n :: rows.inPlace (some n) rest else []
    | none => []

-- The node at which a chain breaks off, if there still is one of its id.
def stray? (rows : Rows) (chain found : List Node) : Option Node :=
  chain[found.length]?.bind fun expected => rows.node? (.node expected.id)

-- All that a chain asks to lock: what is in place, and the node at which it breaks off.
def asksOf (rows : Rows) (mode : NodeMode) (chain found : List Node) : List (Node × LockKind) :=
  mode.onChain chain (found ++ (rows.stray? chain found).toList)

theorem inPlace_of_gone (h : rows.node? (.node expected.id) = none) :
    rows.inPlace parent (expected :: rest) = [] := by
  rw [inPlace, h]

theorem inPlace_of_moved (hn : rows.node? (.node expected.id) = some n)
    (h : ¬isInPlace parent expected n) : rows.inPlace parent (expected :: rest) = [] := by
  rw [inPlace, hn]
  exact if_neg h

theorem inPlace_of_same (hn : rows.node? (.node expected.id) = some n)
    (h : isInPlace parent expected n) :
    rows.inPlace parent (expected :: rest) = n :: rows.inPlace (some n) rest := by
  rw [inPlace, hn]
  exact if_pos h

-- A chain as it is now is in place.
theorem inPlace_eq_self (hnodes : ∀ n ∈ chain, .node n ∈ rows.toList)
    (hlinked : ∀ (i : Nat) (n : Node), chain[i]? = some n →
      isInPlace ((parent :: chain.map some)[i]?.join) n n) :
    rows.inPlace parent chain = chain := by
  induction chain generalizing parent
  case nil => rfl
  case cons n chain ih =>
    have hn := node?_of_mem (hnodes n List.mem_cons_self)
    have hfirst : isInPlace parent n n := hlinked 0 n rfl
    rw [inPlace_of_same hn hfirst, ih fun m hm => hnodes m (List.mem_cons_of_mem _ hm)]
    exact fun i m hm => hlinked (i + 1) m hm

namespace OnTheWay

theorem mem (h : rows.OnTheWay names chain) (hn : n ∈ chain) : .node n ∈ rows.toList := by
  obtain ⟨i, hi, rfl⟩ := List.mem_iff_getElem.mp hn
  have hle := h.length_le
  refine mem_of_place (p := names.take i) ?_
  rw [← h.getElem?_eq (by omega), List.getElem?_eq_getElem]

theorem inPlace_eq (h : rows.OnTheWay names chain) : rows.inPlace none chain = chain := by
  refine inPlace_eq_self (fun n hn => h.mem hn) fun i n hn => ?_
  have hle := h.length_le
  have hi := (List.getElem?_eq_some_iff.mp hn).1
  rw [h.getElem?_eq (by omega)] at hn
  cases i
  case zero => exact (root_of_place_nil hn).2
  case succ i =>
    rw [List.take_succ_eq_append_getElem (by omega)] at hn
    obtain ⟨dir, hdir, -, -, -, hparent, -⟩ := entry_of_place hn
    rw [← h.getElem?_eq (by omega)] at hdir
    simp [isInPlace, hdir, hparent]

-- A walk over one path locks the nodes of its chain as the chain is locked by id.
theorem visits_eq (h : rows.OnTheWay names chain) (hfull : chain.length = names.length + 1) :
    names.fromRoot.filterMap (rows.visit mode [names]) = mode.onChain chain chain := by
  suffices hmap : names.fromRoot.map (rows.visit mode [names]) =
      (mode.onChain chain chain).map some by
    have := congrArg (List.filterMap id) hmap
    simpa [List.filterMap_map] using this
  refine List.ext_getElem? fun i => ?_
  by_cases hi : i < names.length + 1
  case neg => simp [Position.fromRoot, NodeMode.onChain, NodeMode.along, hi, hfull]
  case pos =>
    obtain ⟨n, hn⟩ : ∃ n, chain[i]? = some n := ⟨_, List.getElem?_eq_getElem (hfull ▸ hi)⟩
    have hplace : rows.place (names.take i) = some n :=
      (h.getElem?_eq (Nat.le_of_lt_succ hi)).symm.trans hn
    -- The last node of the chain is the one whose kind may depend on what it is.
    have hkind : mode.kindAt i (names.length + 1) n.isDirectory =
        mode.kindAt i chain.length ((chain.getLast?.map Node.isDirectory).getD false) := by
      rw [hfull]
      by_cases hlast : i + 1 = names.length + 1
      case pos =>
        rw [List.getLast?_eq_getElem?, show chain.length - 1 = i by omega, hn]
        rfl
      case neg => exact NodeMode.kindAt_eq_of_above (.inl hlast) _ _
    have hvisit : rows.visit mode [names] (names.take i) = some (n, mode.kindAt i chain.length
        ((chain.getLast?.map Node.isDirectory).getD false)) :=
      visit_eq_some_iff.mpr
        ⟨hplace, hkind ▸ NodeMode.strongest?_singleton (Nat.le_of_lt_succ hi) _⟩
    simp [Position.fromRoot, NodeMode.onChain, NodeMode.along, hi, hn, hvisit]

end OnTheWay

-- A walk over the names comes to the nodes of the chain as far as this, and no further.
structure Reached (rows : Rows) (p : Position) (cached found : List Node) : Prop where
  length_le : found.length ≤ cached.length
  same {i : Nat} {expected n : Node} : cached[i]? = some expected → found[i]? = some n →
    rows.place (p ++ (cached.tail.take i).map Node.name) = some n ∧ n.id = expected.id
  ended {expected n : Node} : cached[found.length]? = some expected →
    rows.place (p ++ (cached.tail.take found.length).map Node.name) = some n → n.id ≠ expected.id

namespace Reached

theorem nothing (h : ∀ n, rows.place p = some n → n.id ≠ expected.id) :
    rows.Reached p (expected :: rest) [] where
  length_le := Nat.zero_le _
  same _ hn := by cases hn
  ended {e n} he hn := by
    cases he
    exact h n (by simpa using hn)

theorem single (hn : rows.place p = some n) (hid : n.id = expected.id) :
    rows.Reached p [expected] [n] where
  length_le := le_rfl
  same {i e m} he hm := by
    cases i
    case zero =>
      cases he
      cases hm
      exact ⟨by simpa using hn, hid⟩
    case succ i => cases hm
  ended he := by cases he

theorem cons (h : rows.Reached (p ++ [first.name]) (first :: rest) found) (hn : rows.place p = some n)
    (hid : n.id = expected.id) : rows.Reached p (expected :: first :: rest) (n :: found) where
  length_le := Nat.succ_le_succ h.length_le
  same {i e m} he hm := by
    cases i
    case zero =>
      cases he
      cases hm
      exact ⟨by simpa using hn, hid⟩
    case succ i => simpa using h.same he hm
  ended {e m} he hm := h.ended he (by simpa using hm)

end Reached

theorem place_nil_eq : rows.place [] = rows.node? (.node .root) :=
  congrArg (·.bind Row.node?) (lookup_of_key? rfl)

-- What is under the node before, with the same name, is what the name leads to.
theorem Treelike.isInPlace_iff (h : rows.Treelike) (hdir : rows.place p = some m)
    (hn : rows.node? (.node expected.id) = some n) (hbelow : ¬expected.isRoot) :
    isInPlace (some m) expected n ↔ rows.place (p ++ [expected.name]) = some n := by
  have hmem := mem_of_node? hn
  have hnbelow : ¬n.isRoot := by rwa [Node.isRoot, id_of_node? hn]
  constructor
  case mp =>
    intro hsame
    obtain ⟨hparent, hname⟩ : n.parent = m.id ∧ n.name = expected.name := by
      simpa [isInPlace] using hsame
    have hd := h.directory (mem_of_place hdir) hmem (isEntryOf_iff.mpr ⟨hnbelow, hparent⟩)
    rw [place_concat, hdir, Option.bind_some, ← hname]
    exact h.entryNamed?_of_entry hd hmem hnbelow hparent
  case mpr =>
    intro hplace
    obtain ⟨dir, hdir', -, -, -, hparent, hname⟩ := entry_of_place hplace
    cases hdir.symm.trans hdir'
    simp [isInPlace, hparent, hname]

-- The first node of a chain is where the chain has it if and only if the names lead to it.
theorem inPlace_here (hfirst : ∀ n, rows.node? (.node first.id) = some n →
      (isInPlace parent first n ↔ rows.place p = some n)) :
    (rows.inPlace parent (first :: rest) = [] ∧ ∀ n, rows.place p = some n → n.id ≠ first.id) ∨
      ∃ n, rows.place p = some n ∧ n.id = first.id ∧
        rows.inPlace parent (first :: rest) = n :: rows.inPlace (some n) rest := by
  have hat {n : Node} (hn : rows.place p = some n) (hid : n.id = first.id) :
      rows.node? (.node first.id) = some n :=
    hid ▸ node?_of_mem (mem_of_place hn)
  cases hn : rows.node? (.node first.id)
  case none =>
    refine .inl ⟨inPlace_of_gone hn, fun m hm hid => ?_⟩
    cases hn.symm.trans (hat hm hid)
  case some n =>
    by_cases hsame : isInPlace parent first n
    case pos =>
      exact .inr ⟨n, (hfirst n hn).mp hsame, id_of_node? hn, inPlace_of_same hn hsame⟩
    case neg =>
      refine .inl ⟨inPlace_of_moved hn hsame, fun m hm hid => ?_⟩
      cases hn.symm.trans (hat hm hid)
      exact hsame ((hfirst n hn).mpr hm)

theorem Treelike.inPlace_reached (h : rows.Treelike) (hbelow : ∀ n ∈ rest, ¬n.isRoot)
    (hfirst : ∀ n, rows.node? (.node first.id) = some n →
      (isInPlace parent first n ↔ rows.place p = some n)) :
    rows.Reached p (first :: rest) (rows.inPlace parent (first :: rest)) := by
  induction rest generalizing first p parent
  all_goals obtain ⟨heq, hend⟩ | ⟨n, hn, hid, heq⟩ := inPlace_here hfirst
  all_goals rw [heq]
  case nil.inl | cons.inl => exact .nothing hend
  case nil.inr => exact .single hn hid
  case cons.inr next rest ih =>
    refine .cons (ih (fun m hm => hbelow m (List.mem_cons_of_mem _ hm)) fun m hm => ?_) hn hid
    exact h.isInPlace_iff hn hm (hbelow next List.mem_cons_self)

end Rows

namespace Context

variable {c : Context} {rows : Rows} {kind : LockKind} {id : NodeId} {found : Option Row}

-- What is known of nodes by their ids is true, and what is held is known.
structure Certain (rows : Rows) (c : Context) : Prop where
  row {id : NodeId} {row : Row} : c.rows (.node id) = some row → rows.find? (.node id) = some row
  held {id : NodeId} {kind : LockKind} : c.locks.holds (.node id) kind →
    c.rows (.node id) = rows.find? (.node id)
  single {id : NodeId} {key : Key} : c.singles (.node id) = some (some key) → key = .node id

namespace Certain

theorem new (rows : Rows) (tx : TxId) : (Context.new tx).Certain rows where
  row := nofun
  held h := absurd h LockSet.not_holds_empty
  single := nofun

-- An answer is known where a lock is held, and only there.
theorem of_known (h : c.Certain rows) (hknown : c.lockedAnswer? kind (.node id) = some found) :
    found = rows.find? (.node id) ∧ c.locks.holds (.node id) kind := by
  obtain ⟨key, hheld, hsingle, rfl⟩ | ⟨key, row, hheld, hkey, hrow, rfl⟩ :=
    lockedAnswer?_cases hknown
  · cases h.single hsingle
    exact ⟨h.held hheld, hheld⟩
  · cases hkey
    exact ⟨(h.row hrow).symm, hheld⟩

theorem not_held_of_unknown (h : c.Certain rows) (hunknown : c.lockedAnswer? kind (.node id) = none)
    {row : Row} (hrow : rows.find? (.node id) = some row) : ¬c.locks.holds (.node id) kind := by
  intro hheld
  have hlocked : c.lockedRow? kind (.node id) = some row := by
    simp [lockedRow?, Finder.key?, hheld, h.held hheld, hrow]
  rw [lockedAnswer?, hlocked] at hunknown
  split at hunknown
  case h_1 => split at hunknown <;> cases hunknown
  case h_2 => cases hunknown

theorem learnLocked (h : c.Certain rows) :
    (c.learnLocked kind (.node id) (rows.lookup (.node id))).Certain rows := by
  have hanswer := Answers.learnLocked (c := c) kind (.node id) (rows.lookup (.node id))
  have hfound {row : Row} (hrow : rows.lookup (.node id) = some row) :
      row.key = .node id ∧ rows.find? row.key = some row := by
    rw [Rows.lookup_of_key? rfl] at hrow
    have hkey := SortedBy.key_of_find? hrow
    exact ⟨hkey, hkey ▸ hrow⟩
  have hnew {row : Row} {k : NodeId} (hrow : rows.lookup (.node id) = some row)
      (hkey : row.key = .node k) : (c.learnLocked kind (.node id) (rows.lookup (.node id))).rows
        (.node k) = rows.find? (.node k) :=
    hkey ▸ (hanswer.row hrow).trans (hfound hrow).2.symm
  refine ⟨fun {k r} hr => ?row, fun {k kind'} hheld => ?held, fun {k key} hs => ?single⟩
  case row =>
    obtain heq | ⟨row, hrow, hkey⟩ :=
      c.learnLocked_rows_cases kind (.node id) (rows.lookup (.node id)) (.node k)
    · exact h.row (heq.symm.trans hr)
    · exact (hnew hrow hkey).symm.trans hr
  case held =>
    obtain heq | ⟨row, hrow, hkey⟩ :=
      c.learnLocked_rows_cases kind (.node id) (rows.lookup (.node id)) (.node k)
    case inr => exact hnew hrow hkey
    obtain hheld | ⟨-, ⟨row, hrow, hkey⟩ | ⟨hnone, hkey⟩⟩ := holds_of_learnLocked hheld
    · exact heq.trans (h.held hheld)
    · exact hnew hrow hkey
    · cases hkey
      rw [Rows.lookup_of_key? rfl] at hnone
      rw [heq, hnone]
      by_contra hne
      obtain ⟨row, hrow⟩ := Option.ne_none_iff_exists'.mp hne
      cases hnone.symm.trans (h.row hrow)
  case single =>
    by_cases hk : k = id
    case pos =>
      obtain ⟨row, hrow, rfl⟩ := Option.map_eq_some_iff.mp
        (Option.some.inj (hanswer.single.symm.trans (hk ▸ hs)))
      exact hk ▸ (hfound hrow).1
    case neg =>
      obtain heq | ⟨row, hrow, hmem, -⟩ :=
        c.learnLocked_singles_cases kind (rows.lookup (.node id)) (mt Finder.node.inj hk)
      · exact h.single (heq.symm.trans hs)
      · have hsame := Finder.key_of_selects rfl (Row.selects_of_mem_finders hmem)
        exact absurd (Key.node.inj (hsame.symm.trans (hfound hrow).1)) hk

end Certain

end Context

namespace Action

variable {rows : Rows} {mode : NodeMode} {kind : LockKind} {id : NodeId} {c : Context}
  {levels level : Nat} {leafIsDirectory : Bool} {parent : Option Node} {chain : List Node}

-- A node is locked by id unless it is held as strongly already.
theorem lockNode_byId_obtains (h : c.Certain rows) :
    Obtains rows (lockNode kind (.node id)) c fun node c' l =>
      node = rows.node? (.node id) ∧ c'.Certain rows ∧ (node = none → rows.nodesOf l = []) ∧
        ∀ n asks, node = some n →
          rows.nodesOf l ++ c'.locks.missing asks = c.locks.missing ((n, kind) :: asks) := by
  refine Obtains.bind_pure (.lockFind (fun found hknown => ?_) fun hunknown => ?_)
  · obtain ⟨rfl, hheld⟩ := h.of_known hknown
    refine ⟨rfl, h, fun _ => rfl, fun n asks hn => ?_⟩
    rw [LockSet.missing_of_held (by rwa [Rows.id_of_node? hn])]
    rfl
  · have hnodes (row : Row) (hrow : rows.lookup (.node id) = some row) :
        ∃ n : Node, row = .node n :=
      have ⟨n, hn, _⟩ :=
        Row.eq_node_of_key (Finder.key_of_selects rfl (Rows.mem_of_lookup hrow).2)
      ⟨n, hn⟩
    have hlookup : (rows.lookup (.node id)).bind Row.node? = rows.node? (.node id) :=
      congrArg (·.bind Row.node?) (Rows.lookup_of_key? rfl)
    rw [Rows.nodesOf_grant hnodes, hlookup]
    refine ⟨rfl, h.learnLocked, fun hnone => by rw [hnone]; rfl, fun n asks hn => ?_⟩
    have hfind : rows.find? (.node id) = some (.node n) :=
      Rows.id_of_node? hn ▸ SortedBy.find?_of_mem (Rows.mem_of_node? hn)
    rw [hn, LockSet.missing_of_not_held, Rows.lookup_of_key? rfl, hfind]
    · rfl
    · rw [Rows.id_of_node? hn]
      exact h.not_held_of_unknown hunknown hfind

-- A chain is followed as far as it is in place, and the node at which it breaks off is locked too.
theorem lockChainFrom_obtains (h : c.Certain rows) :
    Obtains rows (lockChainFrom mode levels leafIsDirectory level parent chain) c fun found _ l =>
      found = rows.inPlace parent chain ∧ rows.nodesOf l = c.locks.missing
        (mode.along levels leafIsDirectory level (found ++ (rows.stray? chain found).toList)) := by
  induction chain generalizing level parent c
  case nil => exact .pure ⟨rfl, rfl⟩
  case cons expected rest ih =>
    rw [lockChainFrom]
    refine (lockNode_byId_obtains h).bind ?_
    rintro node c' l ⟨rfl, hcertain, hnone, hsome⟩
    cases hn : rows.node? (.node expected.id)
    case none =>
      refine (Obtains.log (P := fun _ c'' l' => c'' = c' ∧ l' = []) ⟨rfl, rfl⟩).bind ?_
      rintro _ _ _ ⟨rfl, rfl⟩
      refine .pure ⟨(Rows.inPlace_of_gone hn).symm, ?_⟩
      rw [List.append_nil, List.append_nil, hnone hn]
      simp [Rows.stray?, hn, NodeMode.along, LockSet.missing]
    case some n =>
      dsimp only
      split
      case isFalse hmoved =>
        refine (Obtains.log (P := fun _ c'' l' => c'' = c' ∧ l' = []) ⟨rfl, rfl⟩).bind ?_
        rintro _ _ _ ⟨rfl, rfl⟩
        refine .pure ⟨(Rows.inPlace_of_moved hn hmoved).symm, ?_⟩
        have := hsome n [] hn
        simpa [Rows.stray?, hn, NodeMode.along, LockSet.missing] using this
      case isTrue hsame =>
        refine Obtains.bind_pure ((ih hcertain).mono ?_)
        rintro found _ l' ⟨rfl, hl'⟩
        refine ⟨(Rows.inPlace_of_same hn hsame).symm, ?_⟩
        rw [Rows.nodesOf_append, hl', hsome n _ hn, List.cons_append, NodeMode.along_cons]
        rfl

theorem lockChain_obtains {tx : TxId} :
    Obtains rows (lockChain mode chain) (.new tx) fun found _ l =>
      found = rows.inPlace none chain ∧
        rows.nodesOf l = LockSet.missing .empty (rows.asksOf mode chain found) :=
  lockChainFrom_obtains (.new rows tx)

theorem lockPath_obtains {tx : TxId} {path : String} {names : Position}
    (hnames : Path.components path = .ok names) :
    Obtains rows (lockPath mode path) (.new tx) fun chain _ l => rows.OnTheWay names chain ∧
      rows.nodesOf l = names.fromRoot.filterMap (rows.visit mode [names]) := by
  have hparsed : [path].mapM parsePath = .ok [(path, names)] := by
    simp [parsePath, hnames]
  refine Obtains.bind_pure ((lockPaths_obtains hparsed).mono ?_)
  rintro chains _ l ⟨rfl, hl⟩
  have hfind : (chainsOf rows.place [(path, names)]).find? path =
      some (path, LockedAt.chainTo rows.place names) :=
    find?_chainsOf hparsed List.mem_cons_self hnames
  refine ⟨?_, hl.trans (congrArg _ Position.closure_singleton)⟩
  change rows.OnTheWay names ((((chainsOf rows.place [(path, names)]).find? path).map Prod.snd).getD [])
  rw [hfind]
  exact Rows.onTheWay_chainTo

end Action

namespace FreshRun

open NamespaceService.Action

variable {rows : Rows} {mode : NodeMode} {path : String} {names : Position} {chain : List Node}

-- The chain that one run has found is found again by another one, which locks all of it alike.
structure Relocks {α : Type} {m : Action α} {m' : Action (List Node)} (a : FreshRun rows m)
    (b : FreshRun rows m') (chain : List Node) : Prop where
  result_eq : b.result = .ok chain
  nodes_eq : b.nodes = chain
  downwards : Downwards [] chain
  acquired_eq : b.acquired = a.acquired
  kindOf?_eq {n : Node} : .node n ∈ rows.toList →
    b.context.locks.kindOf? (.node n.id) = a.context.locks.kindOf? (.node n.id)

theorem lockPath_straight : Stage.Straight (lockPath mode path) :=
  lockPaths_straight.bind fun _ => .pure

theorem lockChain_straight : Stage.Straight (lockChain mode chain) :=
  lockChainFrom_straight

theorem lockChain_obtained (b : FreshRun rows (lockChain mode chain)) (hcalm : b.Calm) :
    b.context.locks = LockSet.recordAll .empty b.grants ∧ b.result = .ok (rows.inPlace none chain) ∧
      b.acquired = LockSet.missing .empty (rows.asksOf mode chain (rows.inPlace none chain)) := by
  obtain ⟨hlocks, ⟨_, hresult, rfl, hacquired⟩ | ⟨-, hbusy, -⟩⟩ :=
    b.obtained lockChain_straight lockChain_obtains
  · exact ⟨hlocks, hresult, hacquired⟩
  · exact absurd hcalm hbusy

theorem lockPath_relocks {a : FreshRun rows (lockPath mode path)}
    {b : FreshRun rows (lockChain mode chain)} (hchain : rows.OnTheWay names chain)
    (hfull : chain.length = names.length + 1)
    (hlocks : a.context.locks = LockSet.recordAll .empty a.grants)
    (hvisits : a.acquired = names.fromRoot.filterMap (rows.visit mode [names])) (hcalm : b.Calm) :
    a.Relocks b chain := by
  obtain ⟨hlocks', hresult, hacquired⟩ := lockChain_obtained b hcalm
  have hplaced : (Position.closure [names]).filterMap rows.place = chain := by
    have hvisits : ((Position.closure [names]).filterMap (rows.visit mode [names])).map Prod.fst =
        (Position.closure [names]).filterMap rows.place := Rows.visits_fst
    rw [← hvisits, Position.closure_singleton, hchain.visits_eq hfull, NodeMode.onChain_map_fst]
  have honce : (chain.map Node.id).Nodup := by
    have hpairwise : ((Position.closure [names]).filterMap rows.place).Pairwise rows.Earlier :=
      Rows.placed_pairwise Position.closure_pairwise_lt
    exact List.pairwise_map.mpr ((hplaced ▸ hpairwise).imp Rows.Earlier.id_ne)
  have hstray : rows.stray? chain chain = none := by simp [Rows.stray?]
  have hall : b.acquired = mode.onChain chain chain := by
    rw [hacquired, hchain.inPlace_eq, Rows.asksOf, hstray, Option.toList_none, List.append_nil]
    refine LockSet.missing_eq_self ?_ fun _ _ _ => LockSet.not_holds_empty
    rwa [NodeMode.onChain_map_fst]
  have hsame : b.acquired = a.acquired := by rw [hall, hvisits, hchain.visits_eq hfull]
  refine ⟨by rw [hresult, hchain.inPlace_eq], by rw [nodes, hall, NodeMode.onChain_map_fst], ?_, hsame,
    fun {_} hn => kindOf?_eq_of_acquired hlocks hlocks' hsame hn⟩
  have hdown : Downwards [] ((Position.closure [names]).filterMap rows.place) :=
    Rows.placed_downwards (List.nil_append _).symm fun _ h => by cases h
  rwa [hplaced] at hdown

-- A chain that a walk over a path has found is locked again as the walk has locked it. Whatever chain
-- it is, it is followed for as long as its names lead to its nodes.
theorem lockChain_follows (hrows : rows.Treelike) :
    (∀ (path : String) (names : Position) (a : FreshRun rows (lockPath mode path)),
      Path.components path = .ok names → (rows.place names).isSome → a.Calm →
        ∃ chain, a.result = .ok chain ∧ rows.OnTheWay names chain ∧ chain.length = names.length + 1 ∧
          ∀ b : FreshRun rows (lockChain mode chain), b.Calm → a.Relocks b chain) ∧
    ∀ (first : Node) (rest : List Node) (b : FreshRun rows (lockChain mode (first :: rest))),
      first.isRoot → (∀ n ∈ rest, ¬n.isRoot) → b.Calm →
        ∃ found, b.result = .ok found ∧ rows.Reached [] (first :: rest) found := by
  constructor
  case left =>
    intro path names a hnames hplace hcalm
    obtain ⟨hlocks, ⟨chain, hresult, hchain, hvisits⟩ | ⟨-, hbusy, -⟩⟩ :=
      a.obtained lockPath_straight (lockPath_obtains hnames)
    case inr => exact absurd hcalm hbusy
    have hfull : chain.length = names.length + 1 := by
      obtain ⟨leaf, hleaf⟩ := Option.isSome_iff_exists.mp hplace
      have hlast := hchain.getElem?_eq (Nat.le_refl names.length)
      rw [List.take_length, hleaf] at hlast
      exact Nat.le_antisymm hchain.length_le (List.getElem?_eq_some_iff.mp hlast).1
    exact ⟨chain, hresult, hchain, hfull, fun b hb => lockPath_relocks hchain hfull hlocks hvisits hb⟩
  case right =>
    intro first rest b hroot hbelow hcalm
    obtain ⟨-, hresult, -⟩ := lockChain_obtained b hcalm
    refine ⟨_, hresult, hrows.inPlace_reached hbelow fun n hn => ?_⟩
    have hid : first.id = .root := Rows.isRoot_iff.mp hroot
    have hnroot : n.isRoot := Rows.isRoot_iff.mpr ((Rows.id_of_node? hn).trans hid)
    rw [Rows.place_nil_eq, ← hid, hn]
    simp [isInPlace, hnroot]

theorem mem_branches {n : Node} (h : .node n ∈ branches.toList) : n = .root ∨
    n = ⟨⟨1⟩, .root, "a", .directory, []⟩ ∨ n = ⟨⟨2⟩, .root, "b", .directory, []⟩ ∨
      n = ⟨⟨3⟩, ⟨2⟩, "f", .file, []⟩ := by
  simpa using SortedBy.mem_of_mem_ofList h

theorem branches_wellFormed : branches.WellFormed where
  root := by decide +kernel
  parent {n} hn hbelow := by
    obtain rfl | rfl | rfl | rfl := mem_branches hn
    · exact absurd rfl hbelow
    · exact ⟨.root, by decide +kernel, rfl, rfl⟩
    · exact ⟨.root, by decide +kernel, rfl, rfl⟩
    · exact ⟨⟨⟨2⟩, .root, "b", .directory, []⟩, by decide +kernel, rfl, rfl⟩
  unique hm hn hmb hnb _ hname := by
    obtain rfl | rfl | rfl | rfl := mem_branches hm
    · exact absurd rfl hmb
    all_goals
      obtain rfl | rfl | rfl | rfl := mem_branches hn
      · exact absurd rfl hnb
      all_goals first | rfl | exact absurd hname (by decide)
  rooted n hn := by
    obtain rfl | rfl | rfl | rfl := mem_branches hn
    · exact .refl _
    · exact .up hn (.refl _)
    · exact .up hn (.refl _)
    · have hb : .node ⟨⟨2⟩, .root, "b", .directory, []⟩ ∈ branches.toList := by decide +kernel
      exact .up hn (.up hb (.refl _))
  name hn hbelow := by
    obtain rfl | rfl | rfl | rfl := mem_branches hn
    · exact absurd rfl hbelow
    all_goals decide +kernel
  owner hb := by simpa using SortedBy.mem_of_mem_ofList hb
  counter hr := by
    obtain rfl | rfl | rfl : _ = Register.nodeIdCounter ∨ _ = Register.blockIdCounter ∨
      _ = Register.generationStamp := by simpa using hr
    · exact ⟨3, rfl⟩
    · exact ⟨0, rfl⟩
    · exact ⟨1000, rfl⟩

-- The second chain has the file under its former name.
theorem lockChain_follows_branches : branches.Treelike ∧
    ∃ (a : FreshRun branches (lockPath .writeOnParent "/b//f")) (chain : List Node)
      (b : FreshRun branches (lockChain .writeOnParent chain))
      (c : FreshRun branches (lockChain .writeOnParent
        [.root, ⟨⟨2⟩, .root, "b", .directory, []⟩, ⟨⟨3⟩, ⟨2⟩, "e", .file, []⟩])),
      a.result = .ok chain ∧ chain.map Node.id = [⟨0⟩, ⟨2⟩, ⟨3⟩] ∧ a.Relocks b chain ∧
        ∃ found, c.result = .ok found ∧ found.map Node.id = [⟨0⟩, ⟨2⟩] ∧ branches.Reached []
          [.root, ⟨⟨2⟩, .root, "b", .directory, []⟩, ⟨⟨3⟩, ⟨2⟩, "e", .file, []⟩] found := by
  have htree := branches_wellFormed.toHierarchy.treelike
  refine ⟨htree, ?_⟩
  obtain ⟨a, -, ha, hids⟩ := exists_checked 1 _ (unused_rows branches)
    (m := lockPath .writeOnParent "/b//f")
    (fun r _ _ => r.toOption.map (·.map Node.id) = some [⟨0⟩, ⟨2⟩, ⟨3⟩]) (by decide +kernel)
  obtain ⟨chain, hresult, -, -, hrelocks⟩ := (lockChain_follows htree).1 "/b//f" ["b", "f"] a
    (by decide +kernel) (by decide +kernel) (calm_of_unused ha)
  obtain ⟨b, -, hb⟩ : ∃ b : FreshRun branches (lockChain .writeOnParent chain),
    b.tx = 2 ∧ b.before = unused branches := exists_run lockChain_straight 2 _ rfl
  obtain ⟨c, -, hc, hids'⟩ := exists_checked 3 _ (unused_rows branches)
    (m := lockChain .writeOnParent
      [.root, ⟨⟨2⟩, .root, "b", .directory, []⟩, ⟨⟨3⟩, ⟨2⟩, "e", .file, []⟩])
    (fun r _ _ => r.toOption.map (·.map Node.id) = some [⟨0⟩, ⟨2⟩]) (by decide +kernel)
  obtain ⟨found, hfound, hreached⟩ :=
    (lockChain_follows htree).2 _ _ c rfl (by decide) (calm_of_unused hc)
  rw [hresult] at hids
  rw [hfound] at hids'
  exact ⟨a, chain, b, c, hresult, Option.some.inj (of_decide_eq_true hids),
    hrelocks b (calm_of_unused hb), found, hfound, Option.some.inj (of_decide_eq_true hids'), hreached⟩

end FreshRun

end NamespaceService
