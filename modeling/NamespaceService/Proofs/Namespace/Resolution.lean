import Mathlib.Data.List.Induction
import NamespaceService.Namespace.Operations
import NamespaceService.Proofs.Transaction.Walk

namespace NamespaceService

namespace Position

theorem length_fromRoot (p : Position) : p.fromRoot.length = p.length + 1 := by
  simp [fromRoot]

theorem fromRoot_getElem? (p : Position) {i : Nat} (h : i ≤ p.length) :
    p.fromRoot[i]? = some (p.take i) := by
  rw [fromRoot, List.getElem?_map, List.getElem?_range (by omega)]
  rfl

theorem take_length_pred (p : Position) : p.take (p.length - 1) = p.dropLast :=
  (List.dropLast_eq_take ..).symm

end Position

namespace LockedAt

variable {locked : LockedAt} {p q : Position} {n : Node}

-- Nothing is locked below a position that is not.
def PrefixClosed (locked : LockedAt) : Prop :=
  ∀ p n, locked p = some n → p ≠ [] → ∃ m, locked p.dropLast = some m

theorem PrefixClosed.of_prefix (h : locked.PrefixClosed) (hp : locked p = some n) (hq : q <+: p) :
    ∃ m, locked q = some m := by
  obtain ⟨r, rfl⟩ := hq
  induction r using List.reverseRecOn generalizing n
  case nil => exact ⟨n, by simpa using hp⟩
  case append_singleton r name ih =>
    have ⟨m, hm⟩ := h _ n hp (by simp)
    rw [← List.append_assoc, List.dropLast_concat] at hm
    exact ih hm

theorem getElem?_takeWhile {l : List (Option Node)}
    (h : ∀ (i j : Nat) (n : Node), i ≤ j → l[j]? = some (some n) → ∃ m, l[i]? = some (some m))
    (i : Nat) : ((l.takeWhile Option.isSome).filterMap id)[i]? = l[i]?.join := by
  induction l generalizing i
  case nil => rfl
  case cons first l ih =>
    cases first
    case none =>
      cases hi : (none :: l)[i]?.join
      case none => rfl
      case some n =>
        have ⟨m, hm⟩ := h 0 i n (Nat.zero_le i) (Option.join_eq_some_iff.mp hi)
        cases hm
    case some n =>
      cases i
      case zero => rfl
      case succ i =>
        refine ih (fun i j n hij hj => ?_) i
        have ⟨m, hm⟩ := h (i + 1) (j + 1) n (by omega) hj
        exact ⟨m, hm⟩

theorem chainTo_getElem? (h : locked.PrefixClosed) {i : Nat} (hi : i ≤ p.length) :
    (locked.chainTo p)[i]? = locked (p.take i) := by
  rw [chainTo, getElem?_takeWhile fun i j n hij hj => ?_, List.getElem?_map,
    Position.fromRoot_getElem? p hi]
  · rfl
  · rw [List.getElem?_map, Option.map_eq_some_iff] at hj
    obtain ⟨r, hr, hn⟩ := hj
    have hj : j < p.fromRoot.length := (List.getElem?_eq_some_iff.mp hr).1
    rw [Position.length_fromRoot] at hj
    rw [Position.fromRoot_getElem? p (by omega)] at hr
    cases hr
    have hprefix : p.take i <+: p.take j := List.take_prefix_take_left hij
    have ⟨m, hm⟩ := h.of_prefix hn hprefix
    exact ⟨m, by rw [List.getElem?_map, Position.fromRoot_getElem? p (by omega), Option.map_some, hm]⟩

theorem length_chainTo_le : (locked.chainTo p).length ≤ p.length + 1 :=
  (List.length_filterMap_le ..).trans <| (List.takeWhile_sublist _).length_le.trans <| by
    rw [List.length_map, Position.length_fromRoot]

-- The whole path was found if the chain is as long as the path.
theorem length_chainTo_eq_iff (h : locked.PrefixClosed) :
    (locked.chainTo p).length = p.length + 1 ↔ (locked p).isSome := by
  have hlast := chainTo_getElem? h (le_refl p.length)
  rw [List.take_length] at hlast
  have hle : (locked.chainTo p).length ≤ p.length + 1 := length_chainTo_le
  rw [← hlast, Option.isSome_iff_ne_none, Ne, List.getElem?_eq_none_iff]
  omega

end LockedAt

namespace SortedBy

variable {κ α : Type} [Ranked κ] [DecidableEq κ] {key : α → κ}

-- Where items of one key are all the same, the list they are made from has them.
theorem find?_ofList {l : List α} {a : α} (ha : a ∈ l) (h : ∀ b ∈ l, key b = key a → b = a) :
    (ofList l : SortedBy key).find? (key a) = some a := by
  suffices hs : ∀ s : SortedBy key, a ∈ l ∨ s.find? (key a) = some a →
      (l.foldl (fun s b => s.insert b) s).find? (key a) = some a from hs .empty (.inl ha)
  clear ha
  intro s hs
  induction l generalizing s
  case nil => simpa using hs
  case cons b l ih =>
    refine ih (fun c hc => h c (List.mem_cons_of_mem _ hc)) _ ?_
    by_cases hmem : a ∈ l
    case pos => exact .inl hmem
    case neg =>
      refine .inr ?_
      rw [find?_insert]
      split
      case isTrue hkey => rw [h b List.mem_cons_self hkey]
      case isFalse hkey =>
        obtain hmem' | hs := hs
        · obtain rfl | hmem' := List.mem_cons.mp hmem'
          · exact absurd rfl hkey
          · exact absurd hmem' hmem
        · exact hs

end SortedBy

namespace Action

theorem Survey.prefixClosed {σ : Timeline} {t₀ t : Nat} {c : Context} {wants : Position → Want}
    {locked : LockedAt} {done : List Position} (h : Survey σ t₀ t c wants locked done) :
    locked.PrefixClosed := by
  intro p n hp hne
  have ⟨finder, hf, _⟩ := (h.placed hp).place
  have ⟨parent, _, hparent, _⟩ := LockedAt.finder?_eq_some hne hf
  exact ⟨parent, hparent⟩

end Action

namespace Namespace

variable {locked : LockedAt} {path : String} {names : Position}

-- Where a path leads, given what there is at every position.
def Resolution.along (place : Position → Option Node) (names : Position) : Resolution where
  target := place names
  parent := if names = [] then none else place names.dropLast

theorem depth_eq (hnames : Path.components path = .ok names) :
    Path.depth path = .ok (names.length + 1) := by
  rw [Path.depth, hnames]
  rfl

-- A chain says where its path leads if it has what there is at each position.
theorem Resolution.of_chain {place : Position → Option Node} {chain : List Node}
    (hchain : ∀ i ≤ names.length, chain[i]? = place (names.take i))
    (hle : chain.length ≤ names.length + 1) :
    Resolution.mk (if chain.length = names.length + 1 then chain[names.length + 1 - 1]? else none)
      (if names.length + 1 < 2 then none else chain[names.length + 1 - 2]?) =
      .along place names := by
  rw [Resolution.along, Resolution.mk.injEq]
  constructor
  case left =>
    have hlast := hchain names.length le_rfl
    rw [List.take_length] at hlast
    rw [Nat.add_sub_cancel, ← hlast]
    split
    case isTrue => rfl
    case isFalse hshort => exact (List.getElem?_eq_none (by omega)).symm
  case right =>
    cases names
    case nil => rfl
    case cons name names =>
      simp only [List.length_cons, Nat.reduceSubDiff, reduceCtorEq, if_false]
      rw [if_neg (by omega), hchain _ (by simp)]
      exact congrArg place (Position.take_length_pred (name :: names))

-- A locked path is resolved by what is locked at its end and above it.
theorem resolve_yields {resolved : Resolved} (hlocked : locked.PrefixClosed)
    (hnames : Path.components path = .ok names)
    (hchain : resolved.chainOf? path = some (locked.chainTo names)) (c : Context) :
    (resolve resolved path) c = .done (.ok (.along locked names), c) := by
  rw [resolve, depth_eq hnames, chainOf, hchain]
  exact congrArg (fun r : Resolution => (Program.done (Except.ok r, c) : Program (Except Stop _ × _)))
    (Resolution.of_chain (fun i hi => LockedAt.chainTo_getElem? hlocked hi)
      LockedAt.length_chainTo_le)

end Namespace

namespace Resolved

variable {resolved : Resolved} {locked : LockedAt} {path : String} {names : Position} {n : Node}

theorem target?_eq (hlocked : locked.PrefixClosed) (hnames : Path.components path = .ok names)
    (hchain : resolved.chainOf? path = some (locked.chainTo names)) :
    resolved.target? path = locked names := by
  have hfull : resolved.isFull path = (locked names).isSome := by
    rw [isFull, hchain, Namespace.depth_eq hnames, Bool.eq_iff_iff]
    simpa using LockedAt.length_chainTo_eq_iff hlocked
  rw [target?, hfull, hchain, Option.bind_some]
  cases hn : locked names
  case none => rfl
  case some n =>
    have hlength := (LockedAt.length_chainTo_eq_iff hlocked).mpr (Option.isSome_iff_exists.mpr ⟨n, hn⟩)
    have hlast := LockedAt.chainTo_getElem? hlocked (le_refl names.length)
    rw [List.take_length, hn] at hlast
    simpa [List.getLast?_eq_getElem?, hlength] using hlast

theorem parent?_eq (hlocked : locked.PrefixClosed) (hnames : Path.components path = .ok names)
    (hchain : resolved.chainOf? path = some (locked.chainTo names)) (hne : names ≠ []) :
    resolved.parent? path = locked names.dropLast := by
  have hlength : 0 < names.length := List.length_pos_iff.mpr hne
  have hpos : names.length + 1 - 2 = names.length - 1 := by omega
  rw [parent?, Namespace.depth_eq hnames]
  dsimp only
  rw [if_neg (by omega), hchain, Option.bind_some, hpos,
    LockedAt.chainTo_getElem? hlocked (by omega), Position.take_length_pred]

theorem targets_eq (hlocked : locked.PrefixClosed) (hnames : Path.components path = .ok names)
    (hpaths : resolved.paths = .ofList [(path, locked.chainTo names)]) :
    resolved.targets = (locked names).toList := by
  have hchain : resolved.chainOf? path = some (locked.chainTo names) := by
    simp [chainOf?, hpaths, SortedBy.find?, SortedBy.ofList, SortedBy.insert, SortedBy.insertInto,
      SortedBy.empty]
  rw [targets, hpaths]
  change [(path, locked.chainTo names)].filterMap _ = _
  simp only [List.filterMap_cons, target?_eq hlocked hnames hchain, List.filterMap_nil]
  cases locked names <;> rfl

theorem directories_eq (h : resolved.targets = [n]) :
    resolved.directories = if n.isDirectory then [n.id] else [] := by
  rw [directories, h]
  split
  case isTrue hdir => simp [hdir, idsOf, SortedBy.ofList, SortedBy.insert, SortedBy.insertInto, SortedBy.empty]
  case isFalse hdir => simp [hdir, idsOf, SortedBy.ofList, SortedBy.empty]

theorem files_eq (h : resolved.targets = [n]) (hchain : resolved.chain = []) :
    resolved.files = if n.isFile then [n.id] else [] := by
  rw [files, h, hchain]
  split
  case isTrue hfile => simp [hfile, idsOf, SortedBy.ofList, SortedBy.insert, SortedBy.insertInto, SortedBy.empty]
  case isFalse hfile => simp [hfile, idsOf, SortedBy.ofList, SortedBy.empty]

end Resolved

end NamespaceService
