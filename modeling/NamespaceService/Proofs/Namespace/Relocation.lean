import NamespaceService.Proofs.Namespace.Places

namespace NamespaceService.Rows

variable {rows rows' : Rows} {dir dir' m n new : Node} {name : String} {p q start goal : Position}

-- The way down decides the places.
theorem place_eq_of_step {f : Position → Option Node} (hnil : rows.place [] = f [])
    (hstep : ∀ p name, f (p ++ [name]) = (f p).bind (rows.entryNamed? · name)) :
    rows.place p = f p := by
  induction p using List.reverseRecOn
  case nil => exact hnil
  case append_singleton p name ih => rw [place_concat, ih, hstep]

namespace Hierarchy

variable (h : rows.Hierarchy)

include h

theorem place_of_entry (hp : rows.place p = some dir) (hdir : dir.isDirectory)
    (hn : .node n ∈ rows.toList) (hbelow : ¬n.isRoot) (hparent : n.parent = dir.id) :
    rows.place (p ++ [n.name]) = some n := by
  rw [place_concat, hp, Option.bind_some]
  exact h.entryNamed?_eq_some_iff.mpr ⟨hdir, hn, hbelow, hparent, rfl⟩

-- Directories with the same entries lead to the same nodes.
theorem entryNamed?_congr (h' : rows'.Hierarchy) (hid : dir'.id = dir.id)
    (hkind : dir'.isDirectory = dir.isDirectory)
    (hentries : dir.isDirectory → ∀ n : Node, ¬n.isRoot → n.parent = dir.id → n.name = name →
      (.node n ∈ rows'.toList ↔ .node n ∈ rows.toList)) :
    rows'.entryNamed? dir' name = rows.entryNamed? dir name := by
  refine Option.ext fun n => ?_
  rw [h'.entryNamed?_eq_some_iff, h.entryNamed?_eq_some_iff, hid, hkind]
  constructor
  case mp =>
    rintro ⟨hdir, hn, hbelow, hparent, hname⟩
    exact ⟨hdir, (hentries hdir n hbelow hparent hname).mp hn, hbelow, hparent, hname⟩
  case mpr =>
    rintro ⟨hdir, hn, hbelow, hparent, hname⟩
    exact ⟨hdir, (hentries hdir n hbelow hparent hname).mpr hn, hbelow, hparent, hname⟩

end Hierarchy

-- What the write of a node makes of the nodes that were there.
def written (new m : Node) : Node :=
  if m.id = new.id then new else m

theorem written_id : (written new m).id = m.id := by
  rw [written]
  split
  case isTrue hid => exact hid.symm
  case isFalse => rfl

theorem written_isDirectory (hn : .node n ∈ rows.toList) (hm : .node m ∈ rows.toList)
    (hid : new.id = n.id) (hkind : new.isDirectory = n.isDirectory) :
    (written new m).isDirectory = m.isDirectory := by
  rw [written]
  split
  case isTrue heq => rw [hkind, node_eq_of_mem hm hn (heq.trans hid)]
  case isFalse => rfl

-- Where the places go when the node at `start` comes to `goal`.
def relocate (start goal : Position) (place : Position → Option Node) (new : Node) (p : Position) :
    Option Node :=
  if goal <+: p then (place (start ++ p.drop goal.length)).map (written new)
  else if start <+: p then none
  else place p

theorem relocate_below {place : Position → Option Node} (r : Position) :
    relocate start goal place new (goal ++ r) = (place (start ++ r)).map (written new) := by
  rw [relocate, if_pos (List.prefix_append goal r), List.drop_left]

theorem relocate_aside {place : Position → Option Node} (hp : ¬goal <+: p) :
    relocate start goal place new p = if start <+: p then none else place p :=
  if_neg hp

section

variable (h : rows.Hierarchy) (h' : rows'.Hierarchy)

include h h'

-- A new node in a directory adds one place.
theorem Puts.place_made (hputs : Puts rows rows' new)
    (hfresh : ∀ n : Node, .node n ∈ rows.toList → n.id ≠ new.id) (hdir : rows.place q = some dir)
    (hkind : dir.isDirectory) (hbelow : ¬new.isRoot) (hparent : new.parent = dir.id)
    (hfree : rows.place (q ++ [new.name]) = none) :
    rows'.place p = if p = q ++ [new.name] then some new else rows.place p := by
  have hnew : .node new ∈ rows'.toList := (hputs new).mpr (.inl rfl)
  refine place_eq_of_step (f := fun p => if p = q ++ [new.name] then some new else rows.place p)
    (by simp [h.place_nil, h'.place_nil]) fun p name => ?_
  by_cases hpn : p ++ [name] = q ++ [new.name]
  case pos =>
    obtain ⟨rfl, hname⟩ := List.append_inj' hpn rfl
    cases List.singleton_inj.mp hname
    rw [if_pos rfl, if_neg (by simp), hdir]
    exact (h'.entryNamed?_eq_some_iff.mpr ⟨hkind, hnew, hbelow, hparent, rfl⟩).symm
  case neg =>
    rw [if_neg hpn]
    by_cases hp : p = q ++ [new.name]
    case pos =>
      rw [if_pos hp, place_none_of_above hfree (hp ▸ List.prefix_append p [name]), Option.bind_some]
      cases hentry : rows'.entryNamed? new name
      case none => rfl
      case some n =>
        obtain ⟨-, hn, hnb, hnp, -⟩ := h'.entryNamed?_eq_some_iff.mp hentry
        obtain rfl | ⟨hn, -⟩ := (hputs n).mp hn
        · exact absurd (hparent.symm.trans hnp) (hfresh dir (Rows.mem_of_place hdir))
        · obtain ⟨above, habove, hid, -⟩ := h.parent hn hnb
          exact absurd (hid.trans hnp) (hfresh above habove)
    case neg =>
      rw [if_neg hp, place_concat]
      cases hm : rows.place p
      case none => rfl
      case some m =>
        refine (h.entryNamed?_congr h' rfl rfl fun _ n hnb hnp hnn => ?_).symm
        constructor
        case mp =>
          intro hn
          obtain rfl | ⟨hn, -⟩ := (hputs n).mp hn
          · refine absurd ?_ hpn
            rw [Rows.place_injective hm hdir (hnp.symm.trans hparent), hnn]
          · exact hn
        case mpr => exact fun hn => (hputs n).mpr (.inr ⟨hn, hfresh n hn⟩)

-- The removal of a node without entries takes its place away.
theorem Drops.place_eq (hdrops : Drops rows rows' n.id) (hn : rows.place q = some n)
    (hbelow : ¬n.isRoot) (hempty : ∀ name, rows.place (q ++ [name]) = none) :
    rows'.place p = if p = q then none else rows.place p := by
  have hne : q ≠ [] := by
    rintro rfl
    cases h.place_nil.symm.trans hn
    exact hbelow rfl
  refine place_eq_of_step (f := fun p => if p = q then none else rows.place p)
    (by rw [if_neg hne.symm, h.place_nil, h'.place_nil]) fun p name => ?_
  by_cases hpq : p = q
  case pos => rw [if_pos hpq, if_neg (by simp [hpq]), hpq, hempty, Option.bind_none]
  case neg =>
    rw [if_neg hpq]
    by_cases hpn : p ++ [name] = q
    case pos =>
      subst hpn
      obtain ⟨dir, hdir, hkind, hmem, -, hparent, hname⟩ := Rows.entry_of_place hn
      rw [if_pos rfl, hdir, Option.bind_some]
      cases hentry : rows'.entryNamed? dir name
      case none => rfl
      case some k =>
        obtain ⟨-, hk, hkb, hkp, hkn⟩ := h'.entryNamed?_eq_some_iff.mp hentry
        obtain ⟨hk, hid⟩ := (hdrops k).mp hk
        cases h.unique hk hmem hkb hbelow (hkp.trans hparent.symm) (hkn.trans hname.symm)
        exact absurd rfl hid
    case neg =>
      rw [if_neg hpn, place_concat]
      cases hm : rows.place p
      case none => rfl
      case some m =>
        refine (h.entryNamed?_congr h' rfl rfl fun hkind k hkb hkp hkn => ?_).symm
        constructor
        case mp => exact fun hk => ((hdrops k).mp hk).1
        case mpr =>
          refine fun hk => (hdrops k).mpr ⟨hk, fun hid => hpn ?_⟩
          rw [← hkn]
          exact Rows.place_injective (h.place_of_entry hm hkind hk hkb hkp) hn hid

section

variable (hputs : Puts rows rows' new) (hn : rows.place start = some n) (hid : new.id = n.id)
  (hbelow : ¬n.isRoot) (hdir : rows.place q = some dir) (hparent : new.parent = dir.id)
  (hout : start <+: q ++ [new.name] → start = q ++ [new.name])

include hputs hn hid hdir hparent

omit h' in
-- The write changes one entry of the directory that the node was in, and one of that which it is in.
theorem Puts.entry_written_iff {k : Node} (hm : rows.place p = some m) (hkind : m.isDirectory)
    (hkb : ¬k.isRoot) (hkp : k.parent = m.id) (hstart : start ≠ p ++ [k.name])
    (hgoal : q ++ [new.name] ≠ p ++ [k.name]) : .node k ∈ rows'.toList ↔ .node k ∈ rows.toList := by
  rw [hputs k]
  constructor
  case mp =>
    rintro (rfl | ⟨hk, -⟩)
    · exact absurd (by rw [Rows.place_injective hdir hm (hparent.symm.trans hkp)]) hgoal
    · exact hk
  case mpr =>
    refine fun hk => .inr ⟨hk, fun heq => hstart ?_⟩
    exact Rows.place_injective hn (h.place_of_entry hm hkind hk hkb hkp) (hid.symm.trans heq.symm)

-- Below the new place, all is as it was below the old one.
theorem Puts.entry_below (habove : ¬start <+: q) (hkind : new.isDirectory = n.isDirectory)
    (hm : rows.place (start ++ p) = some m) :
    rows'.entryNamed? (written new m) name = (rows.place (start ++ p ++ [name])).map (written new) := by
  have hentry : rows'.entryNamed? (written new m) name = rows.entryNamed? m name := by
    refine h.entryNamed?_congr h' written_id (written_isDirectory (Rows.mem_of_place hn)
      (Rows.mem_of_place hm) hid hkind) fun hmd k hkb hkp hkn => ?_
    refine Puts.entry_written_iff h hputs hn hid hdir hparent hm hmd hkb hkp (by simp) ?_
    intro heq
    exact habove ((List.append_inj' heq rfl).1 ▸ List.prefix_append start p)
  have hplace : rows.place (start ++ p ++ [name]) = rows.entryNamed? m name := by
    rw [place_concat, hm, Option.bind_some]
  rw [hentry, hplace]
  cases hk : rows.entryNamed? m name
  case none => rfl
  case some k =>
    have hne : k.id ≠ new.id := fun heq => by
      have := Rows.place_injective (hplace.trans hk) hn (heq.trans hid)
      simp at this
    rw [Option.map_some, written, if_neg hne]

-- No other place changes.
theorem Puts.entry_elsewhere (hstart : start ≠ p ++ [name]) (hgoal : q ++ [new.name] ≠ p ++ [name])
    (hm : rows.place p = some m) : rows'.entryNamed? m name = rows.place (p ++ [name]) := by
  rw [place_concat, hm, Option.bind_some]
  refine h.entryNamed?_congr h' rfl rfl fun hmd k hkb hkp hkn => ?_
  exact Puts.entry_written_iff h hputs hn hid hdir hparent hm hmd hkb hkp (hkn ▸ hstart)
    (hkn ▸ hgoal)

include hbelow

-- The place that the node had is empty, unless it has come back to it.
theorem Puts.entry_left (hstart : start = p ++ [name]) (hgoal : q ++ [new.name] ≠ p ++ [name])
    (hm : rows.place p = some m) : rows'.entryNamed? m name = none := by
  subst hstart
  obtain ⟨above, habove, -, hmem, -, hnp, hnn⟩ := Rows.entry_of_place hn
  cases habove.symm.trans hm
  cases hentry : rows'.entryNamed? m name
  case none => rfl
  case some k =>
    obtain ⟨-, hk, hkb, hkp, hkn⟩ := h'.entryNamed?_eq_some_iff.mp hentry
    obtain rfl | ⟨hk, hne⟩ := (hputs k).mp hk
    · refine absurd ?_ hgoal
      rw [Rows.place_injective hdir hm (hparent.symm.trans hkp), hkn]
    · cases h.unique hk hmem hkb hbelow (hkp.trans hnp.symm) (hkn.trans hnn.symm)
      exact absurd hid.symm hne

include hout

-- A write takes all that is below the node with it.
theorem Puts.place_eq (hkind : new.isDirectory = n.isDirectory) (hd : dir.isDirectory) :
    rows'.place p = relocate start (q ++ [new.name]) rows.place new p := by
  have habove : ¬start <+: q := fun hq => by
    have hlength := congrArg List.length (hout (hq.trans (List.prefix_append ..)))
    have := hq.length_le
    simp at hlength
    omega
  have hne : start ≠ [] := by
    rintro rfl
    exact habove List.nil_prefix
  refine place_eq_of_step (f := relocate start (q ++ [new.name]) rows.place new) ?_ fun p name => ?_
  case refine_1 =>
    rw [relocate, if_neg (by simp), if_neg (by simpa using hne), h.place_nil, h'.place_nil]
  case refine_2 =>
    by_cases hgoal : q ++ [new.name] <+: p
    case pos =>
      obtain ⟨r, rfl⟩ := hgoal
      rw [relocate_below, List.append_assoc, relocate_below, ← List.append_assoc]
      cases hm : rows.place (start ++ r)
      case none => rw [place_concat, hm]; rfl
      case some m =>
        exact (Puts.entry_below h h' hputs hn hid hdir hparent habove hkind hm).symm
    case neg =>
      rw [relocate_aside hgoal]
      by_cases hpn : q ++ [new.name] = p ++ [name]
      case pos =>
        obtain ⟨rfl, hname⟩ := List.append_inj' hpn rfl
        cases List.singleton_inj.mp hname
        have hnew : .node new ∈ rows'.toList := (hputs new).mpr (.inl rfl)
        have hnb : ¬new.isRoot := by rwa [isRoot_iff, hid, ← isRoot_iff]
        have hleaf : relocate start (q ++ [new.name]) rows.place new (q ++ [new.name] ++ []) = _ :=
          relocate_below []
        rw [if_neg habove, hdir, Option.bind_some,
          h'.entryNamed?_eq_some_iff.mpr ⟨hd, hnew, hnb, hparent, rfl⟩]
        rwa [List.append_nil, List.append_nil, hn, Option.map_some, written, if_pos hid.symm] at hleaf
      case neg =>
        have hgoal' : ¬q ++ [new.name] <+: p ++ [name] := fun hprefix =>
          (List.prefix_concat_iff.mp hprefix).elim hpn hgoal
        rw [relocate_aside hgoal']
        by_cases hstart : start <+: p
        case pos => rw [if_pos hstart, if_pos (hstart.trans (List.prefix_append ..)), Option.bind_none]
        case neg =>
          rw [if_neg hstart]
          cases hm : rows.place p
          case none => simp [place_concat, hm]
          case some m =>
            rw [Option.bind_some]
            by_cases hleft : start = p ++ [name]
            case pos =>
              rw [if_pos (hleft ▸ List.prefix_rfl)]
              exact (Puts.entry_left h h' hputs hn hid hbelow hdir hparent hleft hpn hm).symm
            case neg =>
              have hstart' : ¬start <+: p ++ [name] := fun hprefix =>
                (List.prefix_concat_iff.mp hprefix).elim hleft hstart
              rw [if_neg hstart']
              exact (Puts.entry_elsewhere h h' hputs hn hid hdir hparent hleft hpn hm).symm

end

end

end NamespaceService.Rows
