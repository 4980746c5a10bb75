import NamespaceService.Proofs.Namespace.Places
import NamespaceService.Proofs.Transaction.Grants
import NamespaceService.Proofs.Transaction.Walk

namespace NamespaceService

-- Every node but the root comes after its parent, or the parent is held already.
def Downwards : (held : List NodeId) → List Node → Prop
  | _, [] => True
  | held, n :: nodes => (n.isRoot ∨ n.parent ∈ held) ∧ Downwards (n.id :: held) nodes

namespace Rows

variable {rows : Rows} {p q here : Position} {paths before rest : List Position} {m n : Node}
  {mode : NodeMode} {finder : Finder} {kind : LockKind} {held : List NodeId}

def finderAt? (rows : Rows) (p : Position) : Option Finder :=
  LockedAt.finder? rows.place p

theorem place_of_finderAt? (h : rows.finderAt? p = some finder) :
    rows.place p = (rows.lookup finder).bind Row.node? := by
  cases p using List.reverseRecOn
  case nil =>
    cases h
    rfl
  case append_singleton above name _ =>
    obtain ⟨dir, name', hdir, hd, hlast, rfl⟩ := LockedAt.finder?_eq_some (by simp) h
    rw [List.dropLast_concat] at hdir
    rw [List.getLast?_concat] at hlast
    cases hlast
    rw [place_concat, hdir, Option.bind_some, entryNamed?, if_pos hd]

theorem place_of_not_finderAt? (h : rows.finderAt? p = none) : rows.place p = none := by
  cases p using List.reverseRecOn
  case nil => cases h
  case append_singleton above name _ =>
    rw [finderAt?, LockedAt.finder?, List.getLast?_concat, List.dropLast_concat] at h
    rw [place_concat]
    cases hdir : rows.place above
    case none => rfl
    case some dir =>
      have hd : ¬dir.isDirectory := by simpa [hdir] using h
      rw [Option.bind_some, entryNamed?, if_neg hd]

-- No two positions are looked up alike.
theorem finderAt?_injective (hp : rows.finderAt? p = some finder)
    (hq : rows.finderAt? q = some finder) : p = q := by
  by_cases hpnil : p = []
  case pos =>
    subst hpnil
    cases hp
    by_contra hne
    cases LockedAt.key?_of_finder? (Ne.symm hne) hq
  case neg =>
    by_cases hqnil : q = []
    case pos =>
      subst hqnil
      cases hq
      cases LockedAt.key?_of_finder? hpnil hp
    case neg =>
      obtain ⟨dir, name, hdir, -, hname, rfl⟩ := LockedAt.finder?_eq_some hpnil hp
      obtain ⟨dir', name', hdir', -, hname', heq⟩ := LockedAt.finder?_eq_some hqnil hq
      obtain ⟨hid, rfl⟩ := Finder.nodeNamed.inj heq
      rw [← List.dropLast_append_getLast? _ hname, ← List.dropLast_append_getLast? _ hname',
        place_injective hdir hdir' hid]

-- What a walk over the paths locks at a position.
def visit (rows : Rows) (mode : NodeMode) (paths : List Position) (here : Position) :
    Option (Node × LockKind) :=
  (rows.place here).bind fun n => (mode.strongest? paths here n.isDirectory).map (n, ·)

theorem visit_eq_some_iff : rows.visit mode paths here = some (n, kind) ↔
    rows.place here = some n ∧ mode.strongest? paths here n.isDirectory = some kind := by
  rw [visit, Option.bind_eq_some_iff]
  constructor
  case mp =>
    rintro ⟨m, hm, heq⟩
    obtain ⟨k, hk, heq⟩ := Option.map_eq_some_iff.mp heq
    cases heq
    exact ⟨hm, hk⟩
  case mpr =>
    rintro ⟨hn, hkind⟩
    exact ⟨n, hn, by rw [hkind]; rfl⟩

-- Nothing on the way to a path is left out.
theorem visit_fst (hon : ∃ path ∈ paths, here <+: path) :
    (rows.visit mode paths here).map Prod.fst = rows.place here := by
  obtain ⟨path, hpath, hprefix⟩ := hon
  cases hplace : rows.place here
  case none => simp [visit, hplace]
  case some n =>
    obtain ⟨kind, hkind⟩ := NodeMode.exists_strongest? hpath hprefix
    rw [visit_eq_some_iff.mpr ⟨hplace, hkind⟩]
    rfl

theorem visits_fst : ((Position.closure paths).filterMap (rows.visit mode paths)).map Prod.fst =
    (Position.closure paths).filterMap rows.place := by
  rw [List.map_filterMap]
  exact List.filterMap_congr fun p hp => visit_fst (Position.mem_closure_iff.mp hp)

-- The place of the one is before that of the other.
def Earlier (rows : Rows) (m n : Node) : Prop :=
  ∃ p q, rows.place p = some m ∧ rows.place q = some n ∧ p < q

theorem Earlier.id_ne (h : rows.Earlier m n) : m.id ≠ n.id := by
  obtain ⟨p, q, hm, hn, hlt⟩ := h
  rintro heq
  cases place_injective hm hn heq
  exact List.lt_irrefl _ hlt

theorem Earlier.asymm (h : rows.Earlier m n) : ¬rows.Earlier n m := by
  rintro ⟨q', p', hn', hm', hlt'⟩
  obtain ⟨p, q, hm, hn, hlt⟩ := h
  cases place_injective hm hm' rfl
  cases place_injective hn hn' rfl
  exact List.lt_irrefl _ (List.lt_trans hlt hlt')

theorem placed_pairwise {positions : List Position} (h : positions.Pairwise (· < ·)) :
    (positions.filterMap rows.place).Pairwise rows.Earlier :=
  List.pairwise_filterMap.mpr <| h.imp fun {p q} hlt _ hm _ hn => ⟨p, q, hm, hn, hlt⟩

theorem placed_map {positions : List Position} :
    (positions.filter fun p => (rows.place p).isSome).map rows.place =
      (positions.filterMap rows.place).map some := by
  induction positions
  case nil => rfl
  case cons p positions ih => cases hp : rows.place p <;> simp [hp, ih]

-- The directory above a position comes before it, so its parent is held when a node is locked.
theorem placed_downwards (hclosure : Position.closure paths = before ++ rest)
    (hheld : ∀ q ∈ before, ∀ n, rows.place q = some n → n.id ∈ held) :
    Downwards held (rest.filterMap rows.place) := by
  induction rest generalizing before held
  case nil => trivial
  case cons here rest ih =>
    have hnext : Position.closure paths = (before ++ [here]) ++ rest := by simpa using hclosure
    have habove := (Position.of_closure_eq hclosure).2
    cases hplace : rows.place here
    case none =>
      rw [List.filterMap_cons_none hplace]
      refine ih hnext fun q hq n hn => ?_
      obtain hq | hq := List.mem_append.mp hq
      · exact hheld q hq n hn
      · rw [List.mem_singleton.mp hq, hplace] at hn
        cases hn
    case some m =>
      rw [List.filterMap_cons_some hplace]
      refine ⟨?_, ih hnext fun q hq n hn => ?_⟩
      · cases here using List.reverseRecOn
        case nil => exact .inl (root_of_place_nil hplace).2
        case append_singleton above name _ =>
          obtain ⟨dir, hdir, -, -, -, hparent, -⟩ := entry_of_place hplace
          have habove := habove (by simp)
          rw [List.dropLast_concat] at habove
          exact .inr (hparent ▸ hheld above habove dir hdir)
      · obtain hq | hq := List.mem_append.mp hq
        · exact List.mem_cons_of_mem _ (hheld q hq n hn)
        · rw [List.mem_singleton.mp hq, hplace] at hn
          cases hn
          exact List.mem_cons_self

end Rows

namespace Context

variable {c : Context} {kind : LockKind} {finder f : Finder} {found : Option Row}

-- A lookup by name, or of the root, answers no other lookup by name.
theorem asked_of_learnLocked {key? : Option Key} (hfinder : finder = .node .root ∨ finder.key? = none)
    (hsel : ∀ row, found = some row → finder.selects row)
    (hs : (c.learnLocked kind finder found).singles f = some key?) (hkey : f.key? = none) :
    c.singles f = some key? ∨ f = finder := by
  by_cases hne : f = finder
  case pos => exact .inr hne
  case neg =>
    obtain heq | ⟨row, hrow, hmem, -⟩ := c.learnLocked_singles_cases kind found hne
    · exact .inl (heq.symm.trans hs)
    · exact absurd (Row.eq_of_mem_finders hfinder hkey hmem (hsel row hrow)) hne

end Context

namespace Action

variable {rows : Rows} {mode : NodeMode} {paths done rest before : List Position} {locked : LockedAt}
  {here : Position} {c c' : Context} {kind : LockKind} {finder : Finder} {n : Node}

-- Where a walk over unchanging rows has come to: it has locked what is there.
structure Scouted (rows : Rows) (locked : LockedAt) (done : List Position) (c : Context) : Prop where
  at_done {p : Position} : p ∈ done → locked p = rows.place p
  elsewhere {p : Position} : p ∉ done → locked p = none
  asked {finder : Finder} {key? : Option Key} : c.singles finder = some key? → finder.key? = none →
    ∃ p ∈ done, rows.finderAt? p = some finder

namespace Scouted

theorem start (rows : Rows) (tx : TxId) : Scouted rows .nowhere [] (.new tx) where
  at_done h := by cases h
  elsewhere _ := rfl
  asked h := by cases h

theorem finder?_eq (h : Scouted rows locked done c) (habove : here ≠ [] → here.dropLast ∈ done) :
    locked.finder? here = rows.finderAt? here :=
  LockedAt.finder?_congr fun hne => h.at_done (habove hne)

-- The walk has not looked this position up before.
theorem not_asked (h : Scouted rows locked done c) (hhere : here ∉ done) (hne : here ≠ [])
    (hfinder : rows.finderAt? here = some finder) : c.singles finder = none := by
  cases hsingle : c.singles finder
  case none => rfl
  case some key? =>
    obtain ⟨p, hp, hp'⟩ := h.asked hsingle (LockedAt.key?_of_finder? hne hfinder)
    exact absurd (Rows.finderAt?_injective hp' hfinder ▸ hp) hhere

theorem unknown (h : Scouted rows locked done c) (hhere : here ∉ done)
    (hfresh : here = [] → c.locks = .empty) (hfinder : rows.finderAt? here = some finder) :
    c.lockedAnswer? kind finder = none := by
  rw [Context.lockedAnswer?, Context.lockedRow?]
  by_cases hne : here = []
  case pos =>
    have hnone : ∀ key, c.locks.holds key kind = false := fun key => by
      rw [hfresh hne]
      exact Bool.eq_false_iff.mpr LockSet.not_holds_empty
    subst hne
    cases hfinder
    split <;> simp [hnone, Finder.key?]
  case neg =>
    rw [h.not_asked hhere hne hfinder, LockedAt.key?_of_finder? hne hfinder]
    rfl

-- The walk goes on, knowing what is at one more position.
theorem extend (h : Scouted rows locked done c) (hhere : here ∉ done) {locked' : LockedAt}
    (hplace : locked' here = rows.place here) (hsame : ∀ p, p ≠ here → locked' p = locked p)
    (hasked : ∀ f key?, c'.singles f = some key? → f.key? = none →
      c.singles f = some key? ∨ rows.finderAt? here = some f) :
    Scouted rows locked' (here :: done) c' where
  at_done {p} hp := by
    obtain rfl | hp := List.mem_cons.mp hp
    · exact hplace
    · exact (hsame p fun heq => hhere (heq ▸ hp)).trans (h.at_done hp)
  elsewhere {p} hp :=
    (hsame p fun heq => hp (heq ▸ List.mem_cons_self)).trans
      (h.elsewhere fun hmem => hp (List.mem_cons_of_mem _ hmem))
  asked {f key?} hsingle hkey := by
    obtain hsingle | hhere := hasked f key? hsingle hkey
    · obtain ⟨p, hp, hp'⟩ := h.asked hsingle hkey
      exact ⟨p, List.mem_cons_of_mem _ hp, hp'⟩
    · exact ⟨here, List.mem_cons_self, hhere⟩

-- Nothing is at the position.
theorem skip (h : Scouted rows locked done c) (hhere : here ∉ done) (hplace : rows.place here = none)
    (hasked : ∀ f key?, c'.singles f = some key? → f.key? = none →
      c.singles f = some key? ∨ rows.finderAt? here = some f) :
    Scouted rows locked (here :: done) c' :=
  h.extend hhere ((h.elsewhere hhere).trans hplace.symm) (fun _ _ => rfl) hasked

theorem set (h : Scouted rows locked done c) (hhere : here ∉ done) (hplace : rows.place here = some n)
    (hasked : ∀ f key?, c'.singles f = some key? → f.key? = none →
      c.singles f = some key? ∨ rows.finderAt? here = some f) :
    Scouted rows (locked.set here n) (here :: done) c' :=
  h.extend hhere (LockedAt.set_self.trans hplace.symm) (fun _ => LockedAt.set_of_ne) hasked

theorem chainTo_eq (h : Scouted rows locked done c) {path : Position}
    (hdone : ∀ p, p <+: path → p ∈ done) : locked.chainTo path = LockedAt.chainTo rows.place path := by
  have hmap : path.fromRoot.map locked = path.fromRoot.map rows.place :=
    List.map_congr_left fun p hp => h.at_done (hdone p (Position.mem_fromRoot_iff.mp hp))
  rw [LockedAt.chainTo, hmap, LockedAt.chainTo]

end Scouted

theorem lockNode_obtains (hunknown : c.lockedAnswer? kind finder = none) (hnodes : finder.FindsNodes) :
    Obtains rows (lockNode kind finder) c fun node c' l => node = (rows.lookup finder).bind Row.node? ∧
      c' = c.learnLocked kind finder (rows.lookup finder) ∧
      rows.nodesOf l = (node.map (·, kind)).toList := by
  refine Obtains.bind_pure (.lockFind (fun _ hknown => ?_) fun _ => ⟨rfl, rfl, ?_⟩)
  · rw [hunknown] at hknown
    cases hknown
  · exact Rows.nodesOf_grant fun row hrow => hnodes row (Rows.mem_of_lookup hrow).2

theorem settleKind_obtains {want : Want} {level : Nat}
    (hprobe : want.typedLeaf → c.knownSingle? finder = none) :
    Obtains rows (settleKind mode want level finder) c fun kind? c' l => c' = c ∧ l = [] ∧
      ∀ n, (rows.lookup finder).bind Row.node? = some n →
        kind? = want.kindOn mode level n.isDirectory := by
  rw [settleKind]
  split
  case isFalse hplain =>
    exact .pure ⟨rfl, rfl, fun n _ => (if_neg hplain).symm⟩
  case isTrue htyped =>
    refine Obtains.bind (P := fun found c' l => found = rows.lookup finder ∧ c' = c ∧ l = [])
      (.probe (fun found hknown => ?_) fun _ => ⟨rfl, rfl, rfl⟩) ?_
    · rw [hprobe htyped.1] at hknown
      cases hknown
    · rintro _ _ _ ⟨rfl, rfl, rfl⟩
      split
      case h_1 hnone => exact .pure ⟨rfl, rfl, fun n hn => by rw [hnone] at hn; cases hn⟩
      case h_2 leaf hleaf =>
        refine .pure ⟨rfl, rfl, fun n hn => ?_⟩
        cases hleaf.symm.trans hn
        exact (if_pos htyped).symm

theorem noteDeadEnd_obtains :
    Obtains rows (noteDeadEnd here rest n) c fun _ c' l => c' = c ∧ l = [] := by
  rw [noteDeadEnd]
  split
  case isTrue =>
    split
    case h_1 => exact .log ⟨rfl, rfl⟩
    case h_2 => exact .pure ⟨rfl, rfl⟩
  case isFalse => exact .pure ⟨rfl, rfl⟩

-- Where the walk settles on no kind there is no node, for a path always needs some kind.
theorem place_none_of_unsettled (hon : ∃ path ∈ paths, here <+: path)
    (hsettled : ∀ n, rows.place here = some n →
      none = (Want.ofPaths mode paths here).kindOn mode here.length n.isDirectory) :
    rows.place here = none := by
  obtain ⟨path, hpath, hprefix⟩ := hon
  by_contra hne
  obtain ⟨n, hn⟩ := Option.ne_none_iff_exists'.mp hne
  obtain ⟨kind, hkind⟩ : ∃ kind, mode.strongest? paths here n.isDirectory = some kind :=
    NodeMode.exists_strongest? hpath hprefix
  cases (hsettled n hn).trans (Want.kindOn_ofPaths.trans hkind)

-- One step of the walk.
theorem lockPosition_obtains (h : Scouted rows locked done c) (hhere : here ∉ done)
    (habove : here ≠ [] → here.dropLast ∈ done) (hon : ∃ path ∈ paths, here <+: path)
    (hfresh : here = [] → c.locks = .empty) :
    Obtains rows (lockPosition mode paths locked here rest) c fun locked' c' l =>
      Scouted rows locked' (here :: done) c' ∧
        rows.nodesOf l = (rows.visit mode paths here).toList := by
  have hskip : rows.place here = none → (rows.visit mode paths here).toList = [] := fun hplace => by
    simp [Rows.visit, hplace]
  rw [lockPosition, h.finder?_eq habove]
  split
  case h_2 hnone =>
    have hplace : rows.place here = none :=
      Rows.place_of_not_finderAt? (Option.eq_none_iff_forall_ne_some.mpr hnone)
    exact .pure ⟨h.skip hhere hplace fun _ _ hs _ => .inl hs, (hskip hplace).symm⟩
  case h_1 finder hfinder =>
    have hplace := Rows.place_of_finderAt? hfinder
    have hprobe : (Want.ofPaths mode paths here).typedLeaf → c.knownSingle? finder = none := by
      intro htyped
      rw [Context.knownSingle?, h.not_asked hhere (Want.mode_of_typedLeaf htyped rfl).2 hfinder]
      rfl
    refine (settleKind_obtains hprobe).bind ?_
    rintro kind? c _ ⟨rfl, rfl, hsettled⟩
    rw [← hplace] at hsettled
    -- The kind that is settled on for a node is the one that the visit has.
    have hvisit (n : Node) (hn : rows.place here = some n) :
        rows.visit mode paths here = kind?.map (n, ·) := by
      rw [Rows.visit, hn, hsettled n hn, Want.kindOn_ofPaths]
      rfl
    split
    case h_2 hnone =>
      have hnone : kind? = none := Option.eq_none_iff_forall_ne_some.mpr hnone
      have hplace : rows.place here = none :=
        place_none_of_unsettled hon fun n hn => hnone.symm.trans (hsettled n hn)
      exact .pure ⟨h.skip hhere hplace fun _ _ hs _ => .inl hs, (hskip hplace).symm⟩
    case h_1 kind =>
      refine (lockNode_obtains (h.unknown hhere hfresh hfinder)
        (LockedAt.finder?_findsNodes hfinder)).bind ?_
      rintro node _ l ⟨rfl, rfl, hl⟩
      rw [← hplace] at hl ⊢
      have hasked (f : Finder) (key? : Option Key)
          (hs : (c.learnLocked kind finder (rows.lookup finder)).singles f = some key?)
          (hkey : f.key? = none) : c.singles f = some key? ∨ rows.finderAt? here = some f :=
        (Context.asked_of_learnLocked (LockedAt.finder?_root_or_named hfinder)
          (fun row hrow => (Rows.mem_of_lookup hrow).2) hs hkey).imp_right
            fun heq => hfinder.trans (congrArg some heq.symm)
      cases hn : rows.place here
      case none =>
        refine .pure ⟨h.skip hhere hn hasked, ?_⟩
        rw [List.append_nil, List.nil_append, hl, hskip hn, hn]
        rfl
      case some n =>
        refine noteDeadEnd_obtains.bind ?_
        rintro _ _ _ ⟨rfl, rfl⟩
        refine .pure ⟨h.set hhere hn hasked, ?_⟩
        rw [List.append_nil, List.append_nil, List.nil_append, hl, hn, hvisit n hn]
        rfl

-- The rest of the walk, once it is past the root.
theorem walk_obtains (hclosure : Position.closure paths = before ++ rest)
    (hrest : ∀ p ∈ rest, p ≠ []) (hdone : ∀ p, p ∈ done ↔ p ∈ before)
    (h : Scouted rows locked done c) :
    Obtains rows (walk mode paths locked rest) c fun locked' c' l =>
      (∃ done', (∀ p, p ∈ done' ↔ p ∈ Position.closure paths) ∧ Scouted rows locked' done' c') ∧
        rows.nodesOf l = rest.filterMap (rows.visit mode paths) := by
  induction rest generalizing before done locked c
  case nil =>
    refine .pure ⟨⟨done, fun p => ?_, h⟩, rfl⟩
    rw [hclosure, List.append_nil]
    exact hdone p
  case cons here rest ih =>
    rw [walk]
    obtain ⟨hhere, habove⟩ := Position.of_closure_eq hclosure
    have hon := Position.mem_closure_iff.mp (hclosure ▸ List.mem_append_right _ List.mem_cons_self)
    have hne : here ≠ [] := hrest here List.mem_cons_self
    refine (lockPosition_obtains h (mt (hdone here).mp hhere)
      (fun hne => (hdone _).mpr (habove hne)) hon (fun hnil => absurd hnil hne)).bind ?_
    rintro locked' c' l ⟨hscouted, hl⟩
    have hclosure : Position.closure paths = (before ++ [here]) ++ rest := by simpa using hclosure
    refine (ih hclosure (fun p hp => hrest p (List.mem_cons_of_mem _ hp))
      (fun p => by simp [hdone, or_comm]) hscouted).mono ?_
    rintro locked'' c'' l' ⟨hend, hl'⟩
    refine ⟨hend, ?_⟩
    rw [Rows.nodesOf_append, hl, hl']
    cases hvisit : rows.visit mode paths here
    case none => rw [List.filterMap_cons_none hvisit]; rfl
    case some x => rw [List.filterMap_cons_some hvisit]; rfl

theorem walkAll_obtains {tx : TxId} :
    Obtains rows (walk mode paths .nowhere (Position.closure paths)) (.new tx) fun locked c l =>
      (∃ done, (∀ p, p ∈ done ↔ p ∈ Position.closure paths) ∧ Scouted rows locked done c) ∧
        rows.nodesOf l = (Position.closure paths).filterMap (rows.visit mode paths) := by
  by_cases hpaths : paths = []
  case pos =>
    subst hpaths
    exact .pure ⟨⟨[], fun _ => Iff.rfl, .start rows tx⟩, rfl⟩
  case neg =>
    have ⟨rest, hclosure, hrest⟩ := Position.closure_eq_cons hpaths
    have hon := Position.mem_closure_iff.mp (hclosure ▸ List.mem_cons_self)
    have hsplit : Position.closure paths = [[]] ++ rest := hclosure
    rw [hclosure, walk]
    refine (lockPosition_obtains (.start rows tx) (by simp) (by simp) hon fun _ => rfl).bind ?_
    rintro locked c l ⟨hscouted, hl⟩
    refine (walk_obtains hsplit hrest (by simp) hscouted).mono ?_
    rintro locked' c' l' ⟨hend, hl'⟩
    refine ⟨hclosure ▸ hend, ?_⟩
    rw [Rows.nodesOf_append, hl, hl']
    cases hvisit : rows.visit mode paths []
    case none => rw [List.filterMap_cons_none hvisit]; rfl
    case some x => rw [List.filterMap_cons_some hvisit]; rfl

theorem noteResolved_obtains {parsed : List (String × Position)} :
    Obtains rows (parsed.forM (noteResolved locked)) c fun _ c' l => c' = c ∧ l = [] :=
  .forM fun _ => .log ⟨rfl, rfl⟩

-- A walk locks what is on the way to its paths, and gives for each path what is on it.
theorem lockPaths_obtains {tx : TxId} {texts : List String} {parsed : List (String × Position)}
    (hparsed : texts.mapM parsePath = .ok parsed) :
    Obtains rows (lockPaths mode texts) (.new tx) fun chains _ l =>
      chains = .ofList (parsed.map fun (path, names) => (path, LockedAt.chainTo rows.place names)) ∧
        rows.nodesOf l = (Position.closure (parsed.map Prod.snd)).filterMap
          (rows.visit mode (parsed.map Prod.snd)) := by
  rw [lockPaths, hparsed]
  refine Obtains.bind (P := fun r c' l => parsed = r ∧ .new tx = c' ∧ l = [])
    (.pure ⟨rfl, rfl, rfl⟩) ?_
  rintro _ _ _ ⟨rfl, rfl, rfl⟩
  refine walkAll_obtains.bind ?_
  rintro locked c l ⟨⟨done, hdone, hscouted⟩, hl⟩
  refine noteResolved_obtains.bind ?_
  rintro _ _ _ ⟨rfl, rfl⟩
  refine .pure ⟨congrArg SortedBy.ofList (List.map_congr_left ?_), by simpa using hl⟩
  rintro ⟨path, names⟩ hmem
  have hon (p : Position) (hp : p <+: names) : p ∈ done :=
    (hdone p).mpr (Position.mem_closure_iff.mpr ⟨names, List.mem_map.mpr ⟨_, hmem, rfl⟩, hp⟩)
  exact congrArg (Prod.mk path) (hscouted.chainTo_eq hon)

theorem lockPaths_malformed {texts : List String} {fault : Fault}
    (hparsed : texts.mapM parsePath = .error fault) :
    lockPaths mode texts c = .done (.error fault, c) := by
  rw [lockPaths, hparsed]
  rfl

end Action

namespace FreshRun

open NamespaceService.Action

-- What was locked is a part of the tree in pre-order.
structure Preorder {α : Type} {rows : Rows} {m : Action α} (a : FreshRun rows m) : Prop where
  once : (a.nodes.map Node.id).Nodup
  -- The kind is the one that the node was locked at in the first place.
  kept {n : Node} {kind : LockKind} : (n, kind) ∈ a.acquired →
    a.context.locks.kindOf? (.node n.id) = some kind
  downwards : Downwards [] a.nodes
  ordered : ∃ positions : List Position, positions.Pairwise (· < ·) ∧
    positions.map rows.place = a.nodes.map some

variable {rows : Rows} {mode mode' : NodeMode} {texts texts' : List String}
  {a : FreshRun rows (lockPaths mode texts)} {b : FreshRun rows (lockPaths mode' texts')}

theorem lockPaths_visits (a : FreshRun rows (lockPaths mode texts)) :
    a.context.locks = LockSet.recordAll .empty a.grants ∧ ∃ paths : List Position,
      a.acquired = (Position.closure paths).filterMap (rows.visit mode paths) := by
  cases hparsed : texts.mapM parsePath
  case error fault =>
    obtain ⟨-, hcontext, hafter⟩ := a.of_done (lockPaths_malformed hparsed)
    have hgrants : a.grants = rows.grants [] := grants_of_events (by rw [hafter, List.append_nil])
    exact ⟨by rw [hcontext, hgrants]; rfl, [], by rw [acquired, hgrants]; rfl⟩
  case ok parsed =>
    obtain ⟨hlocks, ⟨_, -, -, hvisits⟩ | ⟨-, -, hgrants⟩⟩ :=
      a.obtained lockPaths_straight (lockPaths_obtains hparsed)
    · exact ⟨hlocks, _, hvisits⟩
    · exact ⟨hlocks, [], by rw [acquired, hgrants]; rfl⟩

theorem lockPaths_nodes (a : FreshRun rows (lockPaths mode texts)) :
    ∃ paths : List Position, a.nodes = (Position.closure paths).filterMap rows.place := by
  obtain ⟨-, paths, hvisits⟩ := a.lockPaths_visits
  exact ⟨paths, by rw [nodes, hvisits, Rows.visits_fst]⟩

theorem lockPaths_pairwise (a : FreshRun rows (lockPaths mode texts)) :
    a.nodes.Pairwise rows.Earlier := by
  obtain ⟨paths, hnodes⟩ := a.lockPaths_nodes
  exact hnodes ▸ Rows.placed_pairwise Position.closure_pairwise_lt

theorem lockPaths_once (a : FreshRun rows (lockPaths mode texts)) : (a.nodes.map Node.id).Nodup :=
  List.pairwise_map.mpr (a.lockPaths_pairwise.imp Rows.Earlier.id_ne)

theorem lockPaths_isPreorder (a : FreshRun rows (lockPaths mode texts)) : a.Preorder := by
  obtain ⟨hlocks, -⟩ := a.lockPaths_visits
  obtain ⟨paths, hnodes⟩ := a.lockPaths_nodes
  refine ⟨a.lockPaths_once, kindOf?_of_once hlocks a.lockPaths_once, ?_, ?_⟩
  · rw [hnodes]
    exact Rows.placed_downwards (List.nil_append _).symm nofun
  · have hsorted : (Position.closure paths).Pairwise (· < ·) := Position.closure_pairwise_lt
    refine ⟨_, hsorted.filter fun p => (rows.place p).isSome, ?_⟩
    rw [hnodes, Rows.placed_map]

-- A walk over any paths in any mode locks in pre-order, so that two walks lock the nodes that they
-- have in common in the same order.
theorem lockPaths_preorder (a : FreshRun rows (lockPaths mode texts))
    (b : FreshRun rows (lockPaths mode' texts')) :
    a.Preorder ∧ b.Preorder ∧ a.nodes.filter (· ∈ b.nodes) = b.nodes.filter (· ∈ a.nodes) := by
  refine ⟨a.lockPaths_isPreorder, b.lockPaths_isPreorder, ?_⟩
  have hnodup {mode : NodeMode} {texts : List String} (a : FreshRun rows (lockPaths mode texts)) :
      a.nodes.Nodup := .of_map _ a.lockPaths_once
  have hperm : (a.nodes.filter (· ∈ b.nodes)).Perm (b.nodes.filter (· ∈ a.nodes)) :=
    (List.perm_ext_iff_of_nodup ((hnodup a).filter _) ((hnodup b).filter _)).mpr fun n => by
      simp [and_comm]
  exact hperm.eq_of_pairwise (fun m n _ _ hmn hnm => absurd hnm hmn.asymm)
    (a.lockPaths_pairwise.filter _) (b.lockPaths_pairwise.filter _)

-- Directories 1 "a" and 2 "b", and the file 3 "f" in the second one.
def branches : Rows :=
  .ofList [.node .root, .node ⟨⟨1⟩, .root, "a", .directory, []⟩, .node ⟨⟨2⟩, .root, "b", .directory, []⟩,
    .node ⟨⟨3⟩, ⟨2⟩, "f", .file, []⟩, .register ⟨.nodeIdCounter, 3⟩, .register ⟨.blockIdCounter, 0⟩,
    .register ⟨.generationStamp, 1000⟩]

theorem lockPaths_preorder_branches :
    ∃ (a : FreshRun branches (lockPaths .writeOnParent ["/b/f", "//b", "/b/f/g"]))
      (b : FreshRun branches (lockPaths .read ["/b/./f", "/a"])),
      a.nodes.map Node.id = [⟨0⟩, ⟨2⟩, ⟨3⟩] ∧ b.nodes.map Node.id = [⟨0⟩, ⟨1⟩, ⟨2⟩, ⟨3⟩] ∧
        a.Preorder ∧ b.Preorder ∧ a.nodes.filter (· ∈ b.nodes) = b.nodes.filter (· ∈ a.nodes) := by
  obtain ⟨a, -, ha, hnodes⟩ := exists_checked 1 _ (unused_rows branches)
    (m := lockPaths .writeOnParent ["/b/f", "//b", "/b/f/g"])
    (fun _ _ s => (branches.nodesOf (branches.grants s.events)).map (·.1.id) = [⟨0⟩, ⟨2⟩, ⟨3⟩])
    (by decide +kernel)
  obtain ⟨b, -, hb, hnodes'⟩ := exists_checked 1 _ (unused_rows branches)
    (m := lockPaths .read ["/b/./f", "/a"])
    (fun _ _ s => (branches.nodesOf (branches.grants s.events)).map (·.1.id) = [⟨0⟩, ⟨1⟩, ⟨2⟩, ⟨3⟩])
    (by decide +kernel)
  refine ⟨a, b, ?_, ?_, lockPaths_preorder a b⟩
  · rw [nodes, acquired, grants, events_of_unused ha, List.map_map]
    exact of_decide_eq_true hnodes
  · rw [nodes, acquired, grants, events_of_unused hb, List.map_map]
    exact of_decide_eq_true hnodes'

end FreshRun

end NamespaceService
