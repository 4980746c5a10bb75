import NamespaceService.Proofs.Namespace.OnDemand
import NamespaceService.Proofs.Namespace.Walks
import NamespaceService.Proofs.Store.Fixtures

namespace NamespaceService

open NamespaceService.Action Namespace Program Stage

namespace Store

variable {s : Store} {n : Node} {p names : Position} {paths : List String} {path : String}

theorem forall_above_concat {P : Position → Prop} {name : String} :
    (∀ i < (p ++ [name]).length, P ((p ++ [name]).take i)) ↔ (∀ i < p.length, P (p.take i)) ∧ P p := by
  have htake {i : Nat} (hi : i ≤ p.length) : (p ++ [name]).take i = p.take i :=
    List.take_append_of_le_length hi
  constructor
  case mp =>
    intro h
    refine ⟨fun i hi => htake hi.le ▸ h i (by simp; omega), ?_⟩
    have hlast := h p.length (by simp)
    rwa [htake le_rfl, List.take_length] at hlast
  case mpr =>
    rintro ⟨habove, hp⟩ i hi
    rw [List.length_append, List.length_singleton, Nat.lt_succ_iff] at hi
    rw [htake hi]
    obtain hi | rfl := hi.lt_or_eq
    · exact habove i hi
    · rwa [List.take_length]

-- A place is reached over directories alone.
theorem place_eq_some_iff : s.rows.place p = some n ↔ s.reach? p = some n ∧
    ∀ i < p.length, (s.reach? (p.take i)).map Node.kind = some .directory := by
  induction p using List.reverseRecOn generalizing n
  case nil =>
    rw [reach?_nil, show s.rows.place [] = s.rootNode? from
      congrArg (Option.bind · Row.node?) (Rows.lookup_of_key? rfl)]
    simp
  case append_singleton p name ih =>
    have hentry (dir : Node) : s.rows.entryNamed? dir name =
        if dir.isDirectory then s.childNamed? dir.id name else none := rfl
    rw [@forall_above_concat p fun q => (s.reach? q).map Node.kind = some .directory,
      Rows.place_concat, reach?_concat, Option.bind_eq_some_iff, Option.bind_eq_some_iff]
    constructor
    case mp =>
      rintro ⟨dir, hdir, hn⟩
      obtain ⟨hreach, habove⟩ := ih.mp hdir
      rw [hentry] at hn
      split at hn
      case isFalse => cases hn
      case isTrue hkind =>
        refine ⟨⟨dir, hreach, hn⟩, habove, ?_⟩
        rw [hreach, Option.map_some, of_decide_eq_true hkind]
    case mpr =>
      rintro ⟨⟨dir, hreach, hn⟩, habove, hkind⟩
      rw [hreach, Option.map_some, Option.some_inj] at hkind
      have hdir : dir.isDirectory := decide_eq_true hkind
      exact ⟨dir, ih.mpr ⟨hreach, habove⟩, by rw [hentry, if_pos hdir, hn]⟩

-- Every position on the way is first listed as a directory.
def passable (paths : List String) (names : Position) : Bool :=
  (List.range names.length).all fun i => kindIn? paths (names.take i) = some .directory

theorem place_ofPaths (hids : Store.new.hasIdsFor paths) (names : Position) :
    (ofPaths paths).rows.place names =
      if passable paths names then (ofPaths paths).reach? names else none := by
  have hpassable : passable paths names ↔
      ∀ i < names.length, kindIn? paths (names.take i) = some .directory := by
    simp [passable]
  refine Option.ext fun n => ?_
  simp only [place_eq_some_iff, map_kind_reach_ofPaths hids, ← hpassable]
  by_cases h : passable paths names <;> simp [h]

-- However the path is followed, with locks or without, this is its target.
structure LeadsTo (s : Store) (path : String) (target : Option Node) : Prop where
  locked {mode : NodeMode} {texts : List String} (a : FreshRun s.rows (lockPaths mode texts)) :
    path ∈ texts → (∀ text ∈ texts, ∃ names, Path.components text = .ok names) → a.Calm →
      ∃ chains, a.result = .ok chains ∧
        Resolved.target? { Resolved.empty with paths := chains } path = target
  free (tx : TxId) (w : World) : w.store = s → ∃ r c w',
    (resolve .empty path (.new tx)).run w = some ((.ok r, c), w') ∧ r.target = target

-- However the path is followed, it leads nowhere.
structure Refuses (s : Store) (path : String) : Prop where
  direct : s.nodeAt? path = none
  locked {mode : NodeMode} {texts : List String} (a : FreshRun s.rows (lockPaths mode texts)) :
    path ∈ texts → a.Refused
  free (tx : TxId) (w : World) : ∃ fault c w',
    (resolve .empty path (.new tx)).run w = some ((.error (.failed (.store fault)), c), w')

theorem leadsTo_place (hcoherent : s.Coherent) (hapart : NamesApart s.rows.find?)
    (hroot : s.rows.place [] = some .root) (hnames : Path.components path = .ok names) :
    s.LeadsTo path (s.rows.place names) where
  locked {mode texts} a hmem hformed hcalm := by
    cases hparsed : texts.mapM parsePath
    case error fault =>
      obtain ⟨text, htext, e, he, -⟩ := malformed_of_mapM_parsePath hparsed
      obtain ⟨names, hok⟩ := hformed text htext
      cases he.symm.trans hok
    case ok parsed =>
      refine ⟨_, (FreshRun.lockPaths_resolves hparsed hcalm).result_eq, ?_⟩
      refine Resolved.target?_eq Rows.place_prefixClosed hnames ?_
      rw [Resolved.chainOf?, find?_chainsOf hparsed hmem hnames]
      rfl
  free tx w hw := by
    obtain ⟨c, hyields, -⟩ := resolve_yields_free (.new s.rows tx) hapart hroot hnames
    subst hw
    obtain ⟨s', halone⟩ := Yields.runsAlone hyields hcoherent rfl
    obtain ⟨w', hrun, -⟩ := halone.run
    exact ⟨_, c, w', hrun, rfl⟩

theorem refuses_malformed {e : Path.PathError} (h : Path.components path = .error e) :
    s.Refuses path where
  direct := nodeAt?_malformed h
  locked {mode texts} a hmem := by
    cases hparsed : texts.mapM parsePath
    case error fault => exact FreshRun.lockPaths_refused hparsed
    case ok parsed =>
      obtain ⟨names, hnames⟩ := (mem_of_mapM_parsePath hparsed).2 path hmem
      cases h.symm.trans ((mem_of_mapM_parsePath hparsed).1 _ hnames).2
  free tx w := by
    refine ⟨.invalidRequest e.message, .new tx, w, ?_⟩
    rw [resolve, Path.depth, h]
    rfl

-- What a path leads to is what its names reach in the committed rows, unless there is a file on the
-- way. Each path that is listed has been made. A walk and an operation stop at what is not a
-- directory; the rows go on.
theorem ofPaths_leadsTo (hids : Store.new.hasIdsFor paths) (path : String) :
    (∀ e, Path.components path = .error e → (ofPaths paths).Refuses path) ∧
    ∀ names, Path.components path = .ok names →
      (ofPaths paths).LeadsTo path
        (if passable paths names then (ofPaths paths).nodeAt? path else none) ∧
      ((ofPaths paths).nodeAt? path).map Node.kind = kindIn? paths names ∧
      (path ∈ paths → ((ofPaths paths).nodeAt? path).isSome) := by
  refine ⟨fun e => refuses_malformed, fun names hnames => ?_⟩
  obtain ⟨last, hrooted⟩ := ofPaths_rooted hids
  have hroot : (ofPaths paths).rows.place [] = some .root := by
    rw [place_ofPaths hids, reach?_nil, hrooted.root]
    rfl
  have hkind : ((ofPaths paths).nodeAt? path).map Node.kind = kindIn? paths names :=
    nodeAt?_eq hnames ▸ map_kind_reach_ofPaths hids names
  refine ⟨?_, hkind, fun hmem => ?_⟩
  · rw [nodeAt?_eq hnames, ← place_ofPaths hids]
    exact leadsTo_place ofPaths_coherent hrooted.names hroot hnames
  · rw [← Option.isSome_map, hkind]
    exact isSome_kindIn? hmem hnames

theorem ofPaths_leadsTo_file :
    let paths := ["/d/", "/d/f", "/g", "/g/x"]
    Store.new.hasIdsFor paths ∧
      (ofPaths paths).LeadsTo "/d/f" (some ⟨⟨2⟩, ⟨1⟩, "f", .file, []⟩) ∧
      (ofPaths paths).nodeAt? "/d/f" = some ⟨⟨2⟩, ⟨1⟩, "f", .file, []⟩ ∧
      (ofPaths paths).LeadsTo "/g/x" none ∧ ((ofPaths paths).nodeAt? "/g/x").isSome := by
  intro paths
  have hids : Store.new.hasIdsFor paths := by decide +kernel
  have hnode : (ofPaths paths).nodeAt? "/d/f" = some ⟨⟨2⟩, ⟨1⟩, "f", .file, []⟩ := by decide +kernel
  have hnames : Path.components "/d/f" = .ok ["d", "f"] := by decide +kernel
  have hnames' : Path.components "/g/x" = .ok ["g", "x"] := by decide +kernel
  have hpassable : passable paths ["d", "f"] := by decide +kernel
  have hblocked : passable paths ["g", "x"] = false := by decide +kernel
  have hfile := ((ofPaths_leadsTo hids "/d/f").2 _ hnames).1
  obtain ⟨hbelow, -, hmade⟩ := (ofPaths_leadsTo hids "/g/x").2 _ hnames'
  rw [if_pos hpassable, hnode] at hfile
  rw [hblocked] at hbelow
  exact ⟨hids, hfile, hnode, hbelow, hmade (by simp [paths])⟩

-- A file is listed before something below it. The committed rows lead there, the other ways do not.
theorem belowFile_apart :
    (∃ n, (ofPaths ["/f", "/f/x"]).nodeAt? "/f/x" = some n) ∧
    (∃ (a : FreshRun (ofPaths ["/f", "/f/x"]).rows (lockPaths .read ["/f/x"])) (chains : Chains),
      a.result = .ok chains ∧
        Resolved.target? { Resolved.empty with paths := chains } "/f/x" = none) ∧
    ∃ r c w, (resolve .empty "/f/x" (.new 1)).run { store := ofPaths ["/f", "/f/x"] } =
      some ((.ok r, c), w) ∧ r.target = none := by
  refine ⟨Option.isSome_iff_exists.mp (by decide +kernel), ?_, ?_⟩
  · obtain ⟨a, -, -, hcheck⟩ := FreshRun.exists_checked 1 { store := ofPaths ["/f", "/f/x"] } rfl
      (m := lockPaths .read ["/f/x"]) (fun result _ _ => match result with
        | .ok chains => Resolved.target? { Resolved.empty with paths := chains } "/f/x" = none
        | .error _ => false) (by decide +kernel)
    split at hcheck
    case h_2 => cases hcheck
    case h_1 chains hresult => exact ⟨a, chains, hresult, of_decide_eq_true hcheck⟩
  · have hrun : ((resolve .empty "/f/x" (.new 1)).run { store := ofPaths ["/f", "/f/x"] }).any
        fun x => match x.1.1 with
          | .ok r => r.target = none
          | .error _ => false := by decide +kernel
    obtain ⟨⟨⟨result, c⟩, w⟩, hrun, hcheck⟩ := (Option.any_eq_true ..).mp hrun
    cases result
    case error => cases hcheck
    case ok r => exact ⟨r, c, w, hrun, of_decide_eq_true hcheck⟩

end Store

end NamespaceService
