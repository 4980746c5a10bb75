import NamespaceService.Path

namespace NamespaceService.Path

variable {path : String} {names : List String} {name : String}

-- What stands between the slashes.
def pieces (path : String) : List String :=
  (path.split '/').toList.map (·.copy)

-- What can be a component.
structure IsComponent (name : String) : Prop where
  nonempty : name ≠ ""
  notHere : name ≠ "."
  notAbove : name ≠ ".."
  undivided : '/' ∉ name.toList

theorem segments_eq_splitOn (cs : List Char) : segments cs = cs.splitOn '/' := by
  induction cs
  case nil => simp [segments]
  case cons c cs ih =>
    rw [segments, List.splitOn_cons_eq_if_modifyHead, ih]
    by_cases hc : c = '/'
    case pos => simp [hc]
    case neg =>
      cases hsplit : cs.splitOn '/'
      case nil => exact absurd hsplit (List.splitOn_ne_nil _ _)
      case cons s ss => simp [hc]

theorem pieces_eq (path : String) : pieces path = (segments path.toList).map String.ofList := by
  rw [pieces, String.toList_split_char, segments_eq_splitOn]

theorem pieces_of_absolute {rest : List Char} (h : path.toList = '/' :: rest) :
    pieces path = "" :: (segments rest).map String.ofList := by
  rw [pieces_eq, h, segments, if_pos rfl, List.map_cons, String.ofList_nil]

theorem slash_not_mem_segment {cs segment : List Char} (h : segment ∈ segments cs) :
    '/' ∉ segment := by
  induction cs generalizing segment
  case nil => simp_all [segments]
  case cons c cs ih =>
    rw [segments] at h
    split at h
    case isTrue =>
      obtain rfl | hmem := List.mem_cons.mp h
      · exact List.not_mem_nil
      · exact ih hmem
    case isFalse hc =>
      split at h
      case h_1 => simpa [List.mem_singleton.mp h] using Ne.symm hc
      case h_2 s ss hsplit =>
        rw [hsplit] at ih
        obtain rfl | hmem := List.mem_cons.mp h
        · simpa [Ne.symm hc] using ih List.mem_cons_self
        · exact ih (List.mem_cons_of_mem _ hmem)

theorem isName_iff (segment : List Char) :
    isName segment ↔ String.ofList segment ≠ "" ∧ String.ofList segment ≠ "." := by
  simp [isName, ← String.toList_inj]

-- Components are the pieces that say something.
theorem components_eq_ok_iff : components path = .ok names ↔
    path.startsWith '/' ∧ ".." ∉ pieces path ∧
      names = (pieces path).filter fun piece => piece ≠ "" ∧ piece ≠ "." := by
  rw [String.startsWith_char_eq_head?, components]
  split
  case h_1 rest hpath =>
    have habove : ".." ∈ pieces path ↔ ['.', '.'] ∈ segments rest := by
      simp [pieces_of_absolute hpath, ← String.toList_inj]
    have hnames : ((segments rest).filter isName).map String.ofList =
        (pieces path).filter fun piece => piece ≠ "" ∧ piece ≠ "." := by
      rw [pieces_of_absolute hpath, List.filter_cons_of_neg (by simp), List.filter_map]
      congr 2
      funext segment
      exact Bool.eq_iff_iff.mpr (by simp [isName_iff])
    rw [hpath, habove, hnames, List.head?_cons, beq_self_eq_true]
    split
    case isTrue hmem => simp [hmem]
    case isFalse hmem => simp [hmem, eq_comm]
  case h_2 hrelative =>
    have hhead : path.toList.head? ≠ some '/' := fun hhead => by
      obtain ⟨rest, hpath⟩ := List.head?_eq_some_iff.mp hhead
      exact hrelative rest hpath
    simp [hhead]

theorem isComponent_of_mem (h : components path = .ok names) (hmem : name ∈ names) :
    IsComponent name := by
  obtain ⟨-, habove, rfl⟩ := components_eq_ok_iff.mp h
  obtain ⟨hpiece, hsays⟩ := List.mem_filter.mp hmem
  obtain ⟨hempty, hhere⟩ := of_decide_eq_true hsays
  refine ⟨hempty, hhere, fun h => habove (h ▸ hpiece), ?_⟩
  rw [pieces_eq] at hpiece
  obtain ⟨segment, hsegment, rfl⟩ := List.mem_map.mp hpiece
  simpa using slash_not_mem_segment hsegment

theorem pieces_render (h : ∀ name ∈ names, IsComponent name) (hne : names ≠ []) :
    pieces (render names) = "" :: names := by
  have hrender : render names = String.intercalate (String.singleton '/') ("" :: names) := by
    rw [render, String.intercalate_cons_of_ne_nil hne, String.empty_append]
    rfl
  have hundivided : ∀ name ∈ "" :: names, '/' ∉ name.toList := fun name hmem => by
    obtain rfl | hmem := List.mem_cons.mp hmem
    · simp
    · exact (h name hmem).undivided
  rw [pieces, hrender, String.toList_split_intercalate hundivided, if_neg (List.cons_ne_nil _ _)]

theorem components_render (h : ∀ name ∈ names, IsComponent name) :
    components (render names) = .ok names := by
  cases names
  case nil => rfl
  case cons name rest =>
    have hpieces := pieces_render h (List.cons_ne_nil _ _)
    refine components_eq_ok_iff.mpr ⟨?_, ?_, ?_⟩
    · simp [String.startsWith_char_eq_head?, render]
    · rw [hpieces]
      intro hmem
      obtain hempty | hmem := List.mem_cons.mp hmem
      · simp at hempty
      · exact (h _ hmem).notAbove rfl
    · rw [hpieces, List.filter_cons_of_neg (by simp), List.filter_eq_self.mpr]
      exact fun name hmem => decide_eq_true ⟨(h name hmem).nonempty, (h name hmem).notHere⟩

-- The parent of a path that does not lead to the root, and the last component.
theorem parent_of_components {last : String} (h : components path = .ok (names ++ [last])) :
    dirname? path = some (render names) ∧ components (render names) = .ok names ∧
      basename? path = some last := by
  have hdirname : dirname? path = some (render (names ++ [last]).dropLast) := by
    rw [dirname?, h]
    split
    case h_1 heq => simp at heq
    case h_2 heq => cases heq; rfl
    case h_3 heq => cases heq
  refine ⟨by simpa using hdirname, components_render fun name hmem => ?_, ?_⟩
  · exact isComponent_of_mem h (List.mem_append_left _ hmem)
  · simp [basename?, h]

-- A path has components if it begins with a slash and goes nowhere up, and then they are the pieces
-- that say something. Written one after another they make a path with the same components. The root
-- and what is no path have neither a parent nor a last component; of any other path the components
-- are those of its parent and the last one.
theorem components_laws (path : String) :
    ((∃ names, components path = .ok names) ↔ path.startsWith '/' ∧ ".." ∉ pieces path) ∧
      (∀ names, components path = .ok names →
        names = (pieces path).filter (fun piece => piece ≠ "" ∧ piece ≠ ".") ∧
        components ("/" ++ "/".intercalate names) = .ok names) ∧
      (∀ levels, depth path = .ok levels ↔
        ∃ names, components path = .ok names ∧ levels = names.length + 1) ∧
      ((components path = .ok [] ∨ ∀ names, components path ≠ .ok names) →
        dirname? path = none ∧ basename? path = none) ∧
      (∀ names, components path = .ok names → names ≠ [] →
        ∃ parent above last, dirname? path = some parent ∧ components parent = .ok above ∧
          basename? path = some last ∧ names = above ++ [last]) := by
  refine ⟨?_, fun names h => ?_, fun levels => ?_, ?_, fun names h hne => ?_⟩
  · simp [components_eq_ok_iff]
  · exact ⟨(components_eq_ok_iff.mp h).2.2, components_render fun _ => isComponent_of_mem h⟩
  · rw [depth]
    cases components path <;> simp [Except.map, eq_comm]
  · rintro (hroot | hrejected)
    · simp [dirname?, basename?, hroot]
    · cases hpath : components path
      case ok names => exact absurd hpath (hrejected names)
      case error => simp [dirname?, basename?, hpath]
  · obtain ⟨above, last, rfl⟩ := (List.eq_nil_or_concat names).resolve_left hne
    rw [List.concat_eq_append] at h ⊢
    obtain ⟨hdirname, habove, hbasename⟩ := parent_of_components h
    exact ⟨render above, above, last, hdirname, habove, hbasename, rfl⟩

example : components "/a//b/./c/" = .ok ["a", "b", "c"] := by rfl

end NamespaceService.Path
