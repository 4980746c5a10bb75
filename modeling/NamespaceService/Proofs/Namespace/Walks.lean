import NamespaceService.Proofs.Namespace.Acquisition
import NamespaceService.Proofs.Namespace.Preorder

namespace NamespaceService

open Program

namespace Path

-- The positions of those paths that are well formed.
def positions (texts : List String) : List Position :=
  texts.filterMap fun text => (components text).toOption

theorem mem_positions_iff {texts : List String} {names : Position} :
    names ∈ positions texts ↔ ∃ text ∈ texts, components text = .ok names := by
  rw [positions, List.mem_filterMap]
  refine exists_congr fun text => and_congr_right fun _ => ?_
  cases components text <;> simp [Except.toOption]

end Path

namespace Rows

variable {rows : Rows} {names : Position}

-- These are the nodes on the way from the root to a position, for as long as there are any.
structure OnTheWay (rows : Rows) (names : Position) (chain : List Node) : Prop where
  length_le : chain.length ≤ names.length + 1
  getElem?_eq {i : Nat} : i ≤ names.length → chain[i]? = rows.place (names.take i)

theorem place_prefixClosed : LockedAt.PrefixClosed rows.place := by
  intro p n hp hne
  rw [← List.dropLast_concat_getLast hne] at hp
  obtain ⟨dir, hdir, -⟩ := entry_of_place hp
  exact ⟨dir, hdir⟩

theorem onTheWay_chainTo : rows.OnTheWay names (LockedAt.chainTo rows.place names) where
  length_le := LockedAt.length_chainTo_le
  getElem?_eq := LockedAt.chainTo_getElem? place_prefixClosed

end Rows

namespace SortedBy

variable {κ α : Type} [Ranked κ] [DecidableEq κ] {key : α → κ}

-- Where no two items share a key, what is made of a list is told by its members.
theorem ofList_congr {l l' : List α} (h : ∀ a, a ∈ l ↔ a ∈ l')
    (hkey : ∀ a ∈ l, ∀ b ∈ l, key a = key b → a = b) : (ofList l : SortedBy key) = ofList l' := by
  refine ext_of_mem fun a => ⟨fun ha => ?_, fun ha => ?_⟩
  · have ha := mem_of_mem_ofList ha
    exact mem_of_find? (find?_ofList ((h a).mp ha) fun b hb heq => hkey b ((h b).mpr hb) a ha heq)
  · have ha := (h a).mpr (mem_of_mem_ofList ha)
    exact mem_of_find? (find?_ofList ha fun b hb heq => hkey b hb a ha heq)

end SortedBy

theorem Position.closure_congr {paths paths' : List Position} (h : ∀ p, p ∈ paths ↔ p ∈ paths') :
    closure paths = closure paths' := by
  refine congrArg SortedBy.toList (SortedBy.ofList_congr (fun p => ?_) fun _ _ _ _ => id)
  simp only [List.mem_flatMap, h]

namespace Action

open Stage

variable {mode : NodeMode} {paths paths' rest : List Position} {locked : LockedAt}
  {texts texts' : List String} {parsed parsed' : List (String × Position)} {c c' : Context}
  {s s' : Store} {here : Position}

theorem lockPosition_congr (h : ∀ p, p ∈ paths ↔ p ∈ paths') :
    lockPosition mode paths locked here rest = lockPosition mode paths' locked here rest := by
  rw [lockPosition, lockPosition, Want.ofPaths_congr h]

theorem walk_congr (h : ∀ p, p ∈ paths ↔ p ∈ paths') :
    walk mode paths locked rest = walk mode paths' locked rest := by
  induction rest generalizing locked
  case nil => rfl
  case cons here rest ih =>
    rw [walk, walk, lockPosition_congr h]
    exact congrArg _ (funext fun locked' => ih)

theorem noteResolved_alone {r : Except Fault PUnit}
    (h : (parsed.forM (noteResolved locked) c).RunsAlone s (r, c') s') :
    r = .ok ⟨⟩ ∧ c' = c ∧ s' = s := by
  induction parsed
  case nil =>
    obtain ⟨heq, rfl⟩ := h
    cases heq
    exact ⟨rfl, rfl, rfl⟩
  case cons path parsed ih =>
    change RunsAlone ((noteResolved locked path >>= fun _ => parsed.forM (noteResolved locked)) c) _ _ _
      at h
    rw [bind_apply] at h
    obtain ⟨⟨_, _⟩, _, hlog, hrest⟩ := h.of_bind
    obtain ⟨heq, rfl⟩ := RunsAlone.after_log hlog
    cases heq
    exact ih hrest

def chainsOf (locked : LockedAt) (parsed : List (String × Position)) : Chains :=
  .ofList (parsed.map fun (path, names) => (path, locked.chainTo names))

-- All that is asked of the store is asked by the walk.
theorem lockPaths_alone (hparsed : texts.mapM parsePath = .ok parsed) {r : Except Fault Chains}
    (h : (lockPaths mode texts c).RunsAlone s (r, c') s') :
    ∃ found, (walk mode (parsed.map Prod.snd) .nowhere (Position.closure (parsed.map Prod.snd))
      c).RunsAlone s (found, c') s' ∧ r = found.map fun locked => chainsOf locked parsed := by
  rw [lockPaths, hparsed] at h
  change RunsAlone ((walk mode _ _ _ >>= fun locked => parsed.forM (noteResolved locked) >>=
    fun _ => pure (chainsOf locked parsed)) c) _ _ _ at h
  rw [bind_apply] at h
  obtain ⟨⟨found, c₁⟩, s₁, hwalk, hrest⟩ := h.of_bind
  cases found
  case error fault =>
    obtain ⟨heq, rfl⟩ := hrest
    cases heq
    exact ⟨.error fault, hwalk, rfl⟩
  case ok locked =>
    change RunsAlone ((parsed.forM (noteResolved locked) >>= fun _ => pure (chainsOf locked parsed)) c₁)
      _ _ _ at hrest
    rw [bind_apply] at hrest
    obtain ⟨⟨noted, c₂⟩, s₂, hnoted, hend⟩ := hrest.of_bind
    obtain ⟨rfl, rfl, rfl⟩ := noteResolved_alone hnoted
    obtain ⟨heq, rfl⟩ := hend
    cases heq
    exact ⟨.ok locked, hwalk, rfl⟩

-- Lists of the same paths are read alike.
theorem mem_parsed_iff (hparsed : texts.mapM parsePath = .ok parsed) {path : String × Position} :
    path ∈ parsed ↔ path.1 ∈ texts ∧ Path.components path.1 = .ok path.2 := by
  obtain ⟨hcomponents, htexts⟩ := mem_of_mapM_parsePath hparsed
  refine ⟨hcomponents path, fun ⟨htext, hnames⟩ => ?_⟩
  obtain ⟨names, hmem⟩ := htexts path.1 htext
  cases hnames.symm.trans (hcomponents _ hmem).2
  exact hmem

theorem mem_positions_of_parsed (hparsed : texts.mapM parsePath = .ok parsed) {p : Position} :
    p ∈ parsed.map Prod.snd ↔ p ∈ Path.positions texts := by
  rw [List.mem_map, Path.mem_positions_iff]
  constructor
  case mp =>
    rintro ⟨path, hmem, rfl⟩
    exact ⟨path.1, (mem_parsed_iff hparsed).mp hmem⟩
  case mpr =>
    rintro ⟨text, htext⟩
    exact ⟨(text, p), (mem_parsed_iff hparsed).mpr htext, rfl⟩

theorem chainsOf_congr (hparsed : texts.mapM parsePath = .ok parsed)
    (h : ∀ path, path ∈ parsed ↔ path ∈ parsed') : chainsOf locked parsed = chainsOf locked parsed' := by
  refine SortedBy.ofList_congr (fun x => ?_) ?_
  · simp only [List.mem_map, h]
  · rintro _ ha _ hb heq
    obtain ⟨⟨text, names⟩, hmem, rfl⟩ := List.mem_map.mp ha
    obtain ⟨⟨text', names'⟩, hmem', rfl⟩ := List.mem_map.mp hb
    obtain rfl : text = text' := heq
    cases ((mem_parsed_iff hparsed).mp hmem).2.symm.trans ((mem_parsed_iff hparsed).mp hmem').2
    rfl

theorem find?_chainsOf (hparsed : texts.mapM parsePath = .ok parsed) {text : String}
    {names : Position} (htext : text ∈ texts) (hnames : Path.components text = .ok names) :
    (chainsOf locked parsed).find? text = some (text, locked.chainTo names) := by
  have hmem : (text, names) ∈ parsed := (mem_parsed_iff hparsed).mpr ⟨htext, hnames⟩
  refine SortedBy.find?_ofList (List.mem_map.mpr ⟨_, hmem, rfl⟩) ?_
  rintro _ hb heq
  obtain ⟨⟨text', names'⟩, hmem', rfl⟩ := List.mem_map.mp hb
  obtain rfl : text' = text := heq
  cases hnames.symm.trans ((mem_parsed_iff hparsed).mp hmem').2
  rfl

theorem find?_chainsOf_of_not_mem (hparsed : texts.mapM parsePath = .ok parsed) {text : String}
    (htext : text ∉ texts) : (chainsOf locked parsed).find? text = none := by
  cases hfind : (chainsOf locked parsed).find? text
  case none => rfl
  case some found =>
    obtain ⟨hmem, rfl⟩ := SortedBy.find?_eq_some_iff.mp hfind
    obtain ⟨path, hpath, rfl⟩ := List.mem_map.mp (SortedBy.mem_of_mem_ofList hmem)
    exact absurd ((mem_parsed_iff hparsed).mp hpath).1 htext

end Action

namespace FreshRun

open NamespaceService.Action

variable {rows : Rows} {mode : NodeMode} {texts texts' : List String}

-- A path is refused before anything is asked of the store.
structure Refused (a : FreshRun rows (lockPaths mode texts)) : Prop where
  result_eq : ∃ text ∈ texts, ∃ e, Path.components text = .error e ∧
    a.result = .error (.invalidRequest e.message)
  context_eq : a.context = .new a.tx
  after_eq : a.after = a.before

-- What there is on each path is found, and every node is held as the paths need it, and no more.
structure Resolves (a : FreshRun rows (lockPaths mode texts)) (chains : Chains) : Prop where
  result_eq : a.result = .ok chains
  chain {text : String} {names : Position} : text ∈ texts → Path.components text = .ok names →
    ∃ chain, chains.find? text = some (text, chain) ∧ rows.OnTheWay names chain
  unasked {text : String} : text ∉ texts → chains.find? text = none
  placed {n : Node} : n ∈ a.nodes → ∃ p, rows.place p = some n
  kindOf?_eq {p : Position} {n : Node} : rows.place p = some n →
    a.context.locks.kindOf? (.node n.id) = mode.strongest? (Path.positions texts) p n.isDirectory

-- Two runs come to the same, texts of errors aside.
structure Agrees {α : Type} {m m' : Action α} (a : FreshRun rows m) (b : FreshRun rows m') : Prop where
  result_eq : a.result.toOption = b.result.toOption
  context_eq : a.context = b.context
  store_eq : a.after.store = b.after.store

theorem lockPaths_refused {a : FreshRun rows (lockPaths mode texts)} {fault : Fault}
    (hparsed : texts.mapM parsePath = .error fault) : a.Refused := by
  obtain ⟨text, htext, e, he, rfl⟩ := malformed_of_mapM_parsePath hparsed
  obtain ⟨hresult, hcontext, hafter⟩ := a.of_done (lockPaths_malformed hparsed)
  exact ⟨⟨text, htext, e, he, hresult⟩, hcontext, hafter⟩

theorem lockPaths_resolves {a : FreshRun rows (lockPaths mode texts)}
    {parsed : List (String × Position)} (hparsed : texts.mapM parsePath = .ok parsed)
    (hcalm : a.Calm) : a.Resolves (chainsOf rows.place parsed) := by
  obtain ⟨hlocks, ⟨_, hresult, rfl, hvisits⟩ | ⟨-, hbusy, -⟩⟩ :=
    a.obtained lockPaths_straight (lockPaths_obtains hparsed)
  case inr => exact absurd hcalm hbusy
  refine ⟨hresult, fun htext hnames => ⟨_, find?_chainsOf hparsed htext hnames, Rows.onTheWay_chainTo⟩,
    find?_chainsOf_of_not_mem hparsed, fun {n} hn => ?_, fun {p n} hn => ?_⟩
  · obtain ⟨⟨_, kind⟩, hmem, rfl⟩ := List.mem_map.mp hn
    rw [acquired, hvisits] at hmem
    obtain ⟨p, -, hp⟩ := List.mem_filterMap.mp hmem
    exact ⟨p, (Rows.visit_eq_some_iff.mp hp).1⟩
  · have hpositions : mode.strongest? (parsed.map Prod.snd) p n.isDirectory =
        mode.strongest? (Path.positions texts) p n.isDirectory :=
      NodeMode.strongest?_congr fun _ => mem_positions_of_parsed hparsed
    refine LockSet.kindOf?_eq_iff.mpr fun kind => ?_
    rw [holds_iff hlocks (Rows.mem_of_place hn), ← hpositions]
    refine exists_congr fun held => and_congr_left fun _ => ?_
    rw [acquired, hvisits, List.mem_filterMap]
    constructor
    case mp =>
      rintro ⟨q, -, hq⟩
      obtain ⟨hq, hkind⟩ := Rows.visit_eq_some_iff.mp hq
      rwa [Rows.place_injective hq hn rfl] at hkind
    case mpr =>
      intro hkind
      obtain ⟨path, hpath, hprefix, -⟩ :=
        NodeMode.le_strongest?_iff.mp ⟨held, hkind, LockKind.le_refl held⟩
      exact ⟨p, Position.mem_closure_iff.mpr ⟨path, hpath, hprefix⟩,
        Rows.visit_eq_some_iff.mpr ⟨hn, hkind⟩⟩

theorem lockPaths_agrees {a : FreshRun rows (lockPaths mode texts)}
    {b : FreshRun rows (lockPaths mode texts')} (h : ∀ text, text ∈ texts ↔ text ∈ texts')
    (htx : a.tx = b.tx) (hstore : a.before.store = b.before.store) : a.Agrees b := by
  cases hparsed : texts.mapM parsePath
  case error fault =>
    obtain ⟨text, htext, e, he, -⟩ := malformed_of_mapM_parsePath hparsed
    cases hparsed' : texts'.mapM parsePath
    case ok parsed' =>
      obtain ⟨names, hmem⟩ := (mem_of_mapM_parsePath hparsed').2 text ((h text).mp htext)
      cases he.symm.trans ((mem_of_mapM_parsePath hparsed').1 _ hmem).2
    case error fault' =>
      obtain ⟨hresult, hcontext, hafter⟩ := a.of_done (lockPaths_malformed hparsed)
      obtain ⟨hresult', hcontext', hafter'⟩ := b.of_done (lockPaths_malformed hparsed')
      refine ⟨by rw [hresult, hresult']; rfl, by rw [hcontext, hcontext', htx], ?_⟩
      rw [hafter, hafter', hstore]
  case ok parsed =>
    cases hparsed' : texts'.mapM parsePath
    case error fault' =>
      obtain ⟨text, htext, e, he, -⟩ := malformed_of_mapM_parsePath hparsed'
      obtain ⟨names, hmem⟩ := (mem_of_mapM_parsePath hparsed).2 text ((h text).mpr htext)
      cases he.symm.trans ((mem_of_mapM_parsePath hparsed).1 _ hmem).2
    case ok parsed' =>
      have hmem (path : String × Position) : path ∈ parsed ↔ path ∈ parsed' := by
        rw [mem_parsed_iff hparsed, mem_parsed_iff hparsed', h]
      have hpositions (p : Position) : p ∈ parsed.map Prod.snd ↔ p ∈ parsed'.map Prod.snd := by
        simp only [List.mem_map, hmem]
      obtain ⟨found, hwalk, hresult⟩ := lockPaths_alone hparsed (a.alone lockPaths_straight)
      obtain ⟨found', hwalk', hresult'⟩ := lockPaths_alone hparsed' (b.alone lockPaths_straight)
      rw [htx, hstore, walk_congr hpositions, Position.closure_congr hpositions] at hwalk
      obtain ⟨heq, hafter⟩ := hwalk.unique hwalk'
      obtain ⟨rfl, hcontext⟩ := Prod.mk.inj heq
      refine ⟨?_, hcontext, hafter⟩
      rw [hresult, hresult', show (fun locked => chainsOf locked parsed) =
        fun locked => chainsOf locked parsed' from funext fun _ => chainsOf_congr hparsed hmem]

-- A walk is refused for a malformed path alone. Otherwise it finds all there is, at exactly the kinds
-- that the paths need, in whatever order and how often they are listed.
theorem lockPaths_exact (a : FreshRun rows (lockPaths mode texts)) :
    ((∃ text ∈ texts, ∃ e, Path.components text = .error e) → a.Refused) ∧
    ((∀ text ∈ texts, ∃ names, Path.components text = .ok names) → a.Calm →
      ∃ chains, a.Resolves chains) ∧
    ∀ (texts' : List String) (b : FreshRun rows (lockPaths mode texts')),
      (∀ text, text ∈ texts ↔ text ∈ texts') → a.tx = b.tx → a.before.store = b.before.store →
        a.Agrees b := by
  refine ⟨?_, ?_, fun texts' b => lockPaths_agrees⟩
  · rintro ⟨text, htext, e, he⟩
    cases hparsed : texts.mapM parsePath
    case error fault => exact lockPaths_refused hparsed
    case ok parsed =>
      obtain ⟨names, hmem⟩ := (mem_of_mapM_parsePath hparsed).2 text htext
      cases he.symm.trans ((mem_of_mapM_parsePath hparsed).1 _ hmem).2
  · intro hformed hcalm
    cases hparsed : texts.mapM parsePath
    case ok parsed => exact ⟨_, lockPaths_resolves hparsed hcalm⟩
    case error fault =>
      obtain ⟨text, htext, e, he, -⟩ := malformed_of_mapM_parsePath hparsed
      obtain ⟨names, hnames⟩ := hformed text htext
      cases he.symm.trans hnames

theorem lockPaths_exact_branches :
    ∃ (a : FreshRun branches (lockPaths .writeOnParent ["/b/f", "//b"]))
      (b : FreshRun branches (lockPaths .writeOnParent ["//b", "/b/f", "//b"]))
      (c : FreshRun branches (lockPaths .write ["/a", "/a/.."])),
      (∃ chains, a.Resolves chains) ∧ a.Agrees b ∧ c.Refused := by
  obtain ⟨a, ha, ha'⟩ : ∃ a : FreshRun branches (lockPaths .writeOnParent ["/b/f", "//b"]),
    a.tx = 1 ∧ a.before = unused branches := exists_run lockPaths_straight 1 _ rfl
  obtain ⟨b, hb, hb'⟩ : ∃ b : FreshRun branches (lockPaths .writeOnParent ["//b", "/b/f", "//b"]),
    b.tx = 1 ∧ b.before = unused branches := exists_run lockPaths_straight 1 _ rfl
  obtain ⟨c, -, -⟩ : ∃ c : FreshRun branches (lockPaths .write ["/a", "/a/.."]),
    c.tx = 1 ∧ c.before = unused branches := exists_run lockPaths_straight 1 _ rfl
  refine ⟨a, b, c, (lockPaths_exact a).2.1 ?_ ?_, (lockPaths_exact a).2.2 _ b ?_ ?_ ?_,
    (lockPaths_exact c).1 ?_⟩
  · have hfile : Path.components "/b/f" = .ok ["b", "f"] := by decide +kernel
    have hdir : Path.components "//b" = .ok ["b"] := by decide +kernel
    simp [hfile, hdir]
  · exact calm_of_unused ha'
  · simp [or_comm]
  · rw [ha, hb]
  · rw [ha', hb']
  · exact ⟨"/a/..", by simp, .parentSegment "/a/..", by decide +kernel⟩

end FreshRun

end NamespaceService
