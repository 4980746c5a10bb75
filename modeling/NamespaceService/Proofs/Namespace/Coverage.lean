import NamespaceService.Proofs.Namespace.Moments

namespace NamespaceService

namespace Context

variable {c c' : Context} {change : Change} {key guard : Key} {row : Row}

theorem writeLocked_of_holds (h : c.locks.holds key .write) : c.writeLocked key := by
  obtain ⟨held, hkind, hle⟩ := LockSet.holds_iff.mp h
  cases held
  case write => simp [writeLocked, hkind]
  all_goals exact absurd hle (by decide)

theorem uncovered?_written (h : c.locks.holds change.key .write) : c.uncovered? change = none := by
  rw [uncovered?, if_pos (writeLocked_of_holds h)]

theorem uncovered?_guarded (hguards : c.guardsOf change = [guard])
    (h : c.locks.holds guard .write) : c.uncovered? change = none := by
  rw [uncovered?, hguards]
  split
  case isTrue => rfl
  case isFalse => simp [writeLocked_of_holds h]

theorem uncovered?_made (howner : row.owner? = some guard)
    (horigin : (c.origins row.key).join = none) (h : c.locks.holds guard .write) :
    c.uncovered? (.upsert row) = none := by
  refine uncovered?_guarded ?_ h
  simp [guardsOf, Change.key, horigin, howner]

-- A row that moves leaves one node and comes to another.
theorem uncovered?_moved {old : Key} (howner : row.owner? = some guard)
    (horigin : (c.origins row.key).join = some old) (hold : c.locks.holds old .write)
    (h : c.locks.holds guard .write) : c.uncovered? (.upsert row) = none := by
  rw [uncovered?]
  split
  case isTrue => rfl
  case isFalse =>
    by_cases heq : old = guard
    case pos => simp [guardsOf, Change.key, horigin, howner, heq, writeLocked_of_holds h]
    case neg =>
      simp [guardsOf, Change.key, horigin, howner, heq, writeLocked_of_holds h,
        writeLocked_of_holds hold]

theorem uncovered?_removed (horigin : (c.origins key).join = some guard)
    (h : c.locks.holds guard .write) : c.uncovered? (.remove key) = none := by
  refine uncovered?_guarded ?_ h
  simp [guardsOf, Change.key, horigin]

-- Of the changes, the first one that is not covered counts.
theorem covered?_of_forall (h : ∀ change ∈ c.changes, c.uncovered? change = none) :
    c.covered? = .ok () := by
  have hall : ∀ changes : List Change, (∀ change ∈ changes, c.uncovered? change = none) →
      changes.forM c.coverage = .ok () := by
    intro changes h
    induction changes
    case nil => rfl
    case cons change changes ih =>
      have hfirst : c.coverage change = .ok () := by rw [coverage, h change List.mem_cons_self]
      change (c.coverage change >>= fun _ => changes.forM c.coverage) = _
      rw [hfirst]
      exact ih fun c hc => h c (List.mem_cons_of_mem _ hc)
  rw [covered?]
  split
  case isTrue => exact hall c.changes h
  case isFalse => rfl

theorem covered?_of_uncovered {before after : List Change} (hs : c.sealed)
    (hchanges : c.changes = before ++ change :: after)
    (hbefore : ∀ change ∈ before, c.uncovered? change = none)
    (h : c.uncovered? change = some guard) : c.covered? =
      .error (.lockUpgrade change.key (((c.locks.kindOf? guard).map LockKind.text).getD "none")) := by
  have hfirst : ∀ before : List Change, (∀ change ∈ before, c.uncovered? change = none) →
      (before ++ change :: after).forM c.coverage = c.coverage change >>= fun _ =>
        after.forM c.coverage := by
    intro before hbefore
    induction before
    case nil => rfl
    case cons first before ih =>
      have hfirst : c.coverage first = .ok () := by
        rw [coverage, hbefore first List.mem_cons_self]
      change (c.coverage first >>= fun _ => (before ++ change :: after).forM c.coverage) = _
      rw [hfirst]
      exact ih fun c hc => hbefore c (List.mem_cons_of_mem _ hc)
  rw [covered?, if_pos hs, checkCoverage, hchanges, hfirst before hbefore, coverage, h]
  rfl

theorem Edits.uncovered?_eq (h : c.endLockPhase.Edits c') :
    c'.uncovered? change = c.uncovered? change := by
  have hlocks : c'.locks = c.locks := h.locks
  have horigins : c'.origins = c.origins := h.origins rfl
  simp only [uncovered?, writeLocked, guardsOf, hlocks, horigins]
  rfl

end Context

open NamespaceService.Action Context

namespace Secured

variable {σ : Timeline} {t u : Nat} {tx : TxId} {parsed : List (String × Position)}
  {mode : NodeMode} {resolved : Resolved} {c : Context} {locked : LockedAt} {done : List Position}
  {names p : Position} {n dir : Node} {key : Key}

theorem holds_end (h : Secured σ t tx .write parsed resolved c u locked done)
    (hnames : names ∈ parsed.map Prod.snd) (hn : locked names = some n) :
    c.locks.holds (.node n.id) .write :=
  (h.survey.placed hn).holds (Want.ofPaths_leaf_write hnames)

theorem holds_parent (h : Secured σ t tx .writeOnParent parsed resolved c u locked done)
    (hnames : names ∈ parsed.map Prod.snd) (hne : names ≠ []) (hdir : locked names.dropLast = some dir) :
    c.locks.holds (.node dir.id) .write :=
  (h.survey.placed hdir).holds (Want.ofPaths_parent_write hnames hne)

-- A node that was found belongs to the directory above it.
theorem origin_of_found (h : Secured σ t tx mode parsed resolved c u locked done) (hσ : σ.Unmoved)
    (hn : locked p = some n) (hne : p ≠ []) :
    ∃ dir, locked p.dropLast = some dir ∧ (c.origins (.node n.id)).join = some (.node dir.id) := by
  have hplaced := h.survey.placed hn
  have ⟨finder, hfinder, old, ⟨τ, _, _, hold⟩, hkey, hsel⟩ := hplaced.place
  obtain ⟨dir, name, hdir, -, -, rfl⟩ := LockedAt.finder?_eq_some hne hfinder
  refine ⟨dir, hdir, ?_⟩
  obtain ⟨o, rfl, hentry, -⟩ := Finder.selects_nodeNamed hsel
  have ⟨row, hrow⟩ := hplaced.known
  have ⟨owner, horigin⟩ := h.survey.tracks.known hrow
  have ⟨_, first, ⟨τ', _, _, hfirst⟩, hfkey, howner⟩ := h.survey.tracks.origin horigin
  obtain ⟨f, rfl, hfid⟩ := Row.eq_node_of_key hfkey
  have hfo := hσ.alike hold hfirst (hfid.trans (Key.node.inj hkey).symm)
  obtain ⟨hbelow, hparent⟩ := Rows.isEntryOf_iff.mp hentry
  have hfentry : f.isEntryOf dir.id := by
    rw [Rows.isEntryOf_iff, Rows.isRoot_iff, hfo.id_eq, hfo.parent_eq, ← Rows.isRoot_iff]
    exact ⟨hbelow, hparent⟩
  rw [horigin, Option.join_some, ← howner, Row.owner?_of_isEntryOf hfentry]

end Secured

-- Nothing is known of the owners of rows that have not been locked.
theorem Gathered.origin_none {σ : Timeline} {t u : Nat} {tx : TxId} {mode : NodeMode}
    {parsed : List (String × Position)} {resolved : Resolved} {c : Context} {locked : LockedAt}
    {done : List Position} {lookups : List (LockKind × Finder)} {key : Key}
    (h : Gathered σ t tx mode parsed resolved c u locked done lookups)
    (hnodes : ∀ p n, locked p = some n → key ≠ .node n.id)
    (hlookups : ∀ lookup ∈ lookups, lookup.2.key? ≠ some key) : c.origins key = none := by
  cases horigin : c.origins key
  case none => rfl
  case some owner =>
    have ⟨⟨row, hrow⟩, _⟩ := h.survey.tracks.origin horigin
    obtain ⟨p, n, hn, hkey⟩ | ⟨lookup, hmem, hkey⟩ := h.rows hrow
    · exact absurd hkey (hnodes p n hn)
    · exact absurd hkey (hlookups lookup hmem)

end NamespaceService
