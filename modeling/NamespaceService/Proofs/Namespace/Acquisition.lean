import NamespaceService.Proofs.Namespace.Resolution
import NamespaceService.Proofs.Transaction.Holdings

namespace NamespaceService

open NamespaceService.Action Context Stage

variable {σ : Timeline} {t₀ t u : Nat} {tx : TxId} {mode : NodeMode} {texts : List String}
  {parsed : List (String × Position)} {resolved r : Resolved} {c c' : Context}
  {locked : LockedAt} {done : List Position} {kind : LockKind} {finder : Finder} {key : Key}
  {path holder : String} {names : Position}

-- What has been locked on the way to some paths, and on nothing else but other categories.
structure Secured (σ : Timeline) (t₀ : Nat) (tx : TxId) (mode : NodeMode)
    (parsed : List (String × Position)) (resolved : Resolved) (c : Context) (u : Nat)
    (locked : LockedAt) (done : List Position) : Prop where
  survey : Survey σ t₀ u c (Want.ofPaths mode (parsed.map Prod.snd)) locked done
  done_iff {p : Position} : p ∈ done ↔ p ∈ Position.closure (parsed.map Prod.snd)
  grows : (Context.new tx).Grows c
  paths_eq : resolved.paths = .ofList (parsed.map fun (path, names) => (path, locked.chainTo names))
  chain_eq : resolved.chain = []

namespace Secured

theorem advance (h : Secured σ t₀ tx mode parsed resolved c t locked done)
    (ha : Advances σ t₀ t u c c') (hpaths : r.paths = resolved.paths)
    (hchain : r.chain = resolved.chain) : Secured σ t₀ tx mode parsed r c' u locked done where
  survey := h.survey.advance ha
  done_iff := h.done_iff
  grows := h.grows.trans ha.grows
  paths_eq := hpaths.trans h.paths_eq
  chain_eq := hchain.trans h.chain_eq

theorem wait (h : Secured σ t₀ tx mode parsed resolved c t locked done) (hu : t ≤ u) :
    Secured σ t₀ tx mode parsed resolved c u locked done :=
  h.advance (.wait h.survey.tracks hu) rfl rfl

theorem opened (h : Secured σ t₀ tx mode parsed resolved c t locked done) : c.sealed = false :=
  h.grows.sealed

theorem tx_eq (h : Secured σ t₀ tx mode parsed resolved c t locked done) : c.tx = tx :=
  h.grows.tx

theorem chainOf?_eq (h : Secured σ t₀ tx mode parsed resolved c t locked done)
    (hmem : (path, names) ∈ parsed) (hparsed : ∀ p ∈ parsed, Path.components p.1 = .ok p.2) :
    resolved.chainOf? path = some (locked.chainTo names) := by
  have hfind : resolved.paths.find? path = some (path, locked.chainTo names) := by
    rw [h.paths_eq]
    refine SortedBy.find?_ofList (List.mem_map.mpr ⟨_, hmem, rfl⟩) ?_
    rintro b hb heq
    obtain ⟨q, hq, rfl⟩ := List.mem_map.mp hb
    have hnames := (hparsed _ hq).symm.trans ((congrArg Path.components heq).trans (hparsed _ hmem))
    exact Prod.ext heq (congrArg locked.chainTo (Except.ok.inj hnames))
  rw [Resolved.chainOf?, hfind]
  rfl

end Secured

theorem parsePath_eq (hnames : Path.components path = .ok names) :
    parsePath path = .ok (path, names) := by
  rw [parsePath, hnames]

theorem mapM_parsePath_malformed {e : Path.PathError} (before : List String) {after : List String}
    (hbefore : ∀ text ∈ before, ∃ names, Path.components text = .ok names)
    (hpath : Path.components path = .error e) :
    (before ++ path :: after).mapM parsePath = .error (.invalidRequest e.message) := by
  induction before
  case nil =>
    rw [List.nil_append, List.mapM_cons, parsePath, hpath]
    rfl
  case cons text before ih =>
    have ⟨names, hnames⟩ := hbefore text List.mem_cons_self
    rw [List.cons_append, List.mapM_cons, parsePath_eq hnames,
      ih fun text htext => hbefore text (List.mem_cons_of_mem _ htext)]
    rfl

theorem mapM_parsePath (hnames : Path.components path = .ok names) :
    [path].mapM parsePath = .ok [(path, names)] := by
  rw [List.mapM_cons, parsePath_eq hnames]
  rfl

theorem mem_of_mapM_parsePath (h : texts.mapM parsePath = .ok parsed) :
    (∀ p ∈ parsed, p.1 ∈ texts ∧ Path.components p.1 = .ok p.2) ∧
      ∀ text ∈ texts, ∃ names, (text, names) ∈ parsed := by
  induction texts generalizing parsed
  case nil =>
    cases h
    simp
  case cons text texts ih =>
    rw [List.mapM_cons] at h
    cases hnames : Path.components text
    case error => simp [parsePath, hnames, bind, Except.bind] at h
    case ok names =>
      cases hrest : texts.mapM parsePath
      case error => simp [parsePath_eq hnames, hrest, bind, Except.bind] at h
      case ok rest =>
        rw [parsePath_eq hnames, hrest] at h
        cases h
        obtain ⟨hparsed, htexts⟩ := ih hrest
        constructor
        case left =>
          rintro p hp
          obtain rfl | hp := List.mem_cons.mp hp
          · exact ⟨List.mem_cons_self, hnames⟩
          · exact (hparsed p hp).imp_left (List.mem_cons_of_mem text)
        case right =>
          rintro other hother
          obtain rfl | hother := List.mem_cons.mp hother
          · exact ⟨names, List.mem_cons_self⟩
          · exact (htexts other hother).imp fun _ hmem => List.mem_cons_of_mem _ hmem

theorem malformed_of_mapM_parsePath {fault : Fault} (h : texts.mapM parsePath = .error fault) :
    ∃ text ∈ texts, ∃ e, Path.components text = .error e ∧ fault = .invalidRequest e.message := by
  induction texts
  case nil => cases h
  case cons text texts ih =>
    rw [List.mapM_cons] at h
    cases hnames : Path.components text
    case error e =>
      rw [parsePath, hnames] at h
      cases h
      exact ⟨text, List.mem_cons_self, e, hnames, rfl⟩
    case ok names =>
      cases hrest : texts.mapM parsePath
      case ok => simp [parsePath_eq hnames, hrest, bind, Except.bind, pure, Except.pure] at h
      case error fault' =>
        rw [parsePath_eq hnames, hrest] at h
        cases h
        obtain ⟨other, hother, hmalformed⟩ := ih hrest
        exact ⟨other, List.mem_cons_of_mem text hother, hmalformed⟩

-- At the moment of the lookup, all nodes that the walk has locked had been seen.
def AfterAll (σ : Timeline) (t₀ u : Nat) (locked : LockedAt) (finder : Finder)
    (found : Option Row) : Prop :=
  ∃ τ ≤ u, found = (σ.rows τ).lookup finder ∧ ∀ p n, locked p = some n → σ.Seen t₀ τ (.node n)

theorem AfterAll.mono {found : Option Row} (h : AfterAll σ t₀ t locked finder found) (hu : t ≤ u) :
    AfterAll σ t₀ u locked finder found :=
  have ⟨τ, hτ, hfound⟩ := h
  ⟨τ, hτ.trans hu, hfound⟩

-- Besides the nodes, the rows of these lookups have been locked, and nothing else.
structure Gathered (σ : Timeline) (t₀ : Nat) (tx : TxId) (mode : NodeMode)
    (parsed : List (String × Position)) (resolved : Resolved) (c : Context) (u : Nat)
    (locked : LockedAt) (done : List Position) (lookups : List (LockKind × Finder)) : Prop
    extends Secured σ t₀ tx mode parsed resolved c u locked done where
  looked {kind : LockKind} {finder : Finder} : (kind, finder) ∈ lookups →
    ∃ key, finder.key? = some key ∧ ∃ found, LookedUp σ t₀ u c kind finder found ∧
      AfterAll σ t₀ u locked finder found
  rows {key : Key} {row : Row} : c.rows key = some row →
    (∃ p n, locked p = some n ∧ key = .node n.id) ∨
      ∃ lookup ∈ lookups, lookup.2.key? = some key
  -- No node is locked more strongly than it is wanted.
  held {id : NodeId} {kind : LockKind} : c.locks.holds (.node id) kind →
    ∃ p ∈ done, Allowed (Want.ofPaths mode (parsed.map Prod.snd)) locked p (.node id) kind

theorem acquirePaths_gives (hparsed : texts.mapM parsePath = .ok parsed) (hne : parsed ≠ []) :
    Gives σ (acquireOne .empty (.nodes mode (.paths texts false))) (.new tx) t fun r c u =>
      ∃ locked done, Gathered σ t tx mode parsed r c u locked done [] := by
  refine (lockPaths_gives hparsed hne).bind ?_
  rintro chains c u - ⟨locked, done, h⟩
  refine .pure ⟨locked, done, ⟨h.walked.toSurvey, h.done_iff, h.grows, h.chains_eq, rfl⟩, ?_, ?_,
    h.walked.held⟩
  · exact fun hmem => by cases hmem
  · exact fun hrow => .inl (h.walked.nodes hrow)

namespace Gathered

variable {lookups : List (LockKind × Finder)}

theorem wait (h : Gathered σ t₀ tx mode parsed resolved c t locked done lookups) (hu : t ≤ u) :
    Gathered σ t₀ tx mode parsed resolved c u locked done lookups where
  toSecured := h.toSecured.wait hu
  looked hmem :=
    have ⟨key, hkey, found, hlooked, hafter⟩ := h.looked hmem
    ⟨key, hkey, found, hlooked.wait hu, hafter.mono hu⟩
  rows := h.rows
  held := h.held

-- One more row is looked up, by a key that was not looked up before.
theorem lockFind (h : Gathered σ t₀ tx mode parsed resolved c t locked done lookups)
    (hkey : finder.key? = some key) (hnode : ∀ id, key ≠ .node id)
    (hnew : ∀ lookup ∈ lookups, lookup.2.key? ≠ some key) :
    Gives σ (lockFind kind finder) c t fun _ c' u => ∀ r : Resolved, r.paths = resolved.paths →
      r.chain = resolved.chain →
      Gathered σ t₀ tx mode parsed r c' u locked done ((kind, finder) :: lookups) := by
  have hfresh : ∀ k, finder.key? = some k → c.rows k = none := by
    rintro k hk
    cases hkey.symm.trans hk
    cases hrow : c.rows key
    case none => rfl
    case some row =>
      obtain ⟨p, n, -, hk⟩ | ⟨lookup, hmem, hk⟩ := h.rows hrow
      · exact absurd hk (hnode n.id)
      · exact absurd hk (hnew lookup hmem)
  refine (lockFind_found h.survey.tracks h.opened hfresh).mono ?_
  intro found c' u hu hfound r hpaths hchain
  refine { toSecured := h.toSecured.advance (hfound.advances hu) hpaths hchain
           looked := fun hmem => ?looked
           rows := fun {k row} hrow => ?rows
           held := fun {id k} hk => ?held }
  case looked =>
    obtain heq | hmem := List.mem_cons.mp hmem
    · cases heq
      have ⟨n, hf⟩ := hfound.asked hkey
      refine ⟨key, hkey, found, hfound.lookedUp hkey h.survey.tracks.le, n, hf.lt.le, hf.eq,
        fun p m hm => ?_⟩
      have ⟨τ, h₀, hτ, hmem, _⟩ := (h.survey.placed hm).seen
      exact ⟨τ, h₀, hτ.trans hf.le, hmem⟩
    · have ⟨key', hkey', found', hlooked, hafter⟩ := h.looked hmem
      have hne : key' ≠ key := fun heq => hnew _ hmem (heq ▸ hkey')
      exact ⟨key', hkey', found', hlooked.advance hkey' hfound hkey hne hu, hafter.mono hu⟩
  case rows =>
    by_cases hk : k = key
    case pos => exact .inr ⟨_, List.mem_cons_self, hk ▸ hkey⟩
    case neg =>
      rw [hfound.rows_eq hkey hk] at hrow
      exact (h.rows hrow).imp_right fun ⟨lookup, hmem, hk⟩ =>
        ⟨lookup, List.mem_cons_of_mem _ hmem, hk⟩
  case held =>
    obtain hk | ⟨-, ⟨row, rfl, hrow⟩ | ⟨-, hk⟩⟩ := hfound.held hk
    · exact h.held hk
    · have ⟨old, _, hold, hsel⟩ := (hfound.locked rfl).fits
      exact absurd ((Finder.key_of_selects hkey hsel).symm.trans (hold.trans hrow)) (hnode id)
    · exact absurd (Option.some.inj (hkey.symm.trans hk)) (hnode id)

theorem acquireLease (h : Gathered σ t₀ tx mode parsed resolved c t locked done lookups)
    (hnew : ∀ lookup ∈ lookups, lookup.2.key? ≠ some (.lease holder)) :
    Gives σ (acquireOne resolved (.lease kind holder)) c t fun r c' u =>
      Gathered σ t₀ tx mode parsed r c' u locked done ((kind, .lease holder) :: lookups) :=
  (h.lockFind rfl (by simp) hnew).bind fun _ _ _ _ h => .pure (h _ rfl rfl)

theorem lockRegisters {registers : List Register}
    (h : Gathered σ t₀ tx mode parsed resolved c t locked done lookups) (hnodup : registers.Nodup)
    (hnew : ∀ lookup ∈ lookups, ∀ name ∈ registers, lookup.2.key? ≠ some (.register name)) :
    Gives σ (registers.mapM fun name => Action.lockFind kind (.register name)) c t fun _ c' u =>
      ∀ r : Resolved, r.paths = resolved.paths → r.chain = resolved.chain →
        Gathered σ t₀ tx mode parsed r c' u locked done
          ((registers.map fun name => (kind, .register name)).reverse ++ lookups) := by
  induction registers generalizing c t lookups
  case nil => exact .pure fun r hp hc => { h with
    toSecured := h.toSecured.advance (.wait h.survey.tracks le_rfl) hp hc }
  case cons name registers ih =>
    have ⟨hname, hnodup⟩ := List.nodup_cons.mp hnodup
    rw [List.mapM_cons]
    refine (h.lockFind rfl (by simp) fun x hx => hnew x hx name List.mem_cons_self).bind ?_
    intro _ c' s _ h'
    refine (ih (h' resolved rfl rfl) hnodup ?_).bind fun _ _ _ _ h'' => .pure fun r hp hc => ?_
    · rintro x hx other hother
      obtain rfl | hx := List.mem_cons.mp hx
      · rintro heq
        cases heq
        exact hname hother
      · exact hnew x hx other (List.mem_cons_of_mem _ hother)
    · simpa using h'' r hp hc

theorem acquireRegisters {registers sorted : List Register}
    (h : Gathered σ t₀ tx mode parsed resolved c t locked done lookups)
    (hsorted : (SortedBy.ofList registers : SortedBy (id : Register → Register)).toList = sorted)
    (hnodup : sorted.Nodup)
    (hnew : ∀ lookup ∈ lookups, ∀ name ∈ sorted, lookup.2.key? ≠ some (.register name)) :
    Gives σ (acquireOne resolved (.registers kind registers)) c t fun r c' u =>
      Gathered σ t₀ tx mode parsed r c' u locked done
        ((sorted.map fun name => (kind, .register name)).reverse ++ lookups) := by
  have hlocked : Gives σ (Action.lockRegisters kind registers) c t fun _ c' u => ∀ r : Resolved,
      r.paths = resolved.paths → r.chain = resolved.chain →
      Gathered σ t₀ tx mode parsed r c' u locked done
        ((sorted.map fun name => (kind, .register name)).reverse ++ lookups) := by
    rw [Action.lockRegisters, hsorted]
    exact (h.lockRegisters hnodup hnew).bind fun _ _ _ _ h => .pure h
  exact hlocked.bind fun _ _ _ _ h => .pure (h _ rfl rfl)

end Gathered

-- The node at the end of the path has been locked, and its version observed.
theorem Secured.target_seen (h : Secured σ t₀ tx mode [(path, names)] resolved c t locked done)
    (hmode : mode ≠ .readCommitted) {n : Node} (hn : locked names = some n) :
    ∃ τ, t₀ ≤ τ ∧ τ ≤ t ∧ .node n ∈ (σ.rows τ).toList ∧ σ.Rests c.tx t (.node n.id) τ := by
  have ⟨τ, h₀, hτ, hmem, hrests⟩ := (h.survey.placed hn).seen
  exact ⟨τ, h₀, hτ, hmem, hrests (Want.ofPaths_leaf_strong (by simp) hmode)⟩

-- What has been listed of the node at the end of a path.
structure Entries (σ : Timeline) (t₀ u : Nat) (c : Context) (n : Node) : Prop where
  children : n.isDirectory → ∃ kind found, Listed σ t₀ u c kind (.children n.id) n found

-- The entries have been locked for reading at least.
structure Listing (σ : Timeline) (t₀ u : Nat) (c : Context) (n : Node) : Prop where
  listed : n.isDirectory → ∃ found, Listed σ t₀ u c .read (.children n.id) n found

structure Contents (σ : Timeline) (t₀ u : Nat) (c : Context) (n : Node) : Prop
    extends Entries σ t₀ u c n where
  blocks : n.isFile → ∃ found, Listed σ t₀ u c .write (.blocksOf n.id) n found
  unlisted : ¬n.isDirectory → ¬n.isFile → c.lists (.blocksOf n.id) = none

theorem Entries.wait {n : Node} (h : Entries σ t₀ t c n) (hu : t ≤ u) : Entries σ t₀ u c n where
  children hdir :=
    have ⟨kind, found, hlisted⟩ := h.children hdir
    ⟨kind, found, hlisted.wait hu⟩

theorem Listing.children {n : Node} (h : Listing σ t₀ u c n) (hdir : n.isDirectory) :
    ∃ kind found, Listed σ t₀ u c kind (.children n.id) n found :=
  ⟨_, h.listed hdir⟩

theorem Listing.wait {n : Node} (h : Listing σ t₀ t c n) (hu : t ≤ u) : Listing σ t₀ u c n where
  listed hdir :=
    have ⟨found, hlisted⟩ := h.listed hdir
    ⟨found, hlisted.wait hu⟩

theorem Contents.wait {n : Node} (h : Contents σ t₀ t c n) (hu : t ≤ u) : Contents σ t₀ u c n where
  toEntries := h.toEntries.wait hu
  blocks hfile :=
    have ⟨found, hlisted⟩ := h.blocks hfile
    ⟨found, hlisted.wait hu⟩
  unlisted := h.unlisted

theorem lockChildren_listed {n : Node} (h : Tracks σ t₀ t t c) (hnodes : NodesOnly locked c)
    (hseen : ∃ τ, t₀ ≤ τ ∧ τ ≤ t ∧ .node n ∈ (σ.rows τ).toList ∧ σ.Rests c.tx t (.node n.id) τ) :
    Gives σ (lockChildren [n.id]) c t fun _ c' u => Advances σ t₀ t u c c' ∧ ∃ found,
      Listed σ t₀ u c' ((c.locks.kindOf? (.node n.id)).getD .readCommitted) (.children n.id) n found := by
  rw [lockChildren, List.mapM_cons]
  refine Gives.bind (P := fun _ c' u => Advances σ t₀ t u c c' ∧ ∃ found, Listed σ t₀ u c'
    ((c.locks.kindOf? (.node n.id)).getD .readCommitted) (.children n.id) n found) ?_
    fun _ _ _ _ h => .pure h
  refine Gives.bind (P := fun r c' u => r = c ∧ c' = c ∧ u = t) (Gives.get ⟨rfl, rfl, rfl⟩) ?_
  rintro _ _ _ - ⟨rfl, rfl, rfl⟩
  refine (lockList_listed h hnodes.opened (hnodes.lists _) hseen).bind ?_
  exact fun _ _ _ _ ⟨ha, hl⟩ => .pure ⟨ha, _, hl⟩

-- The entries of the node at the end of a path are listed if it is a directory.
theorem acquireChildren_gives {P : Node → Context → Nat → Prop}
    (hnames : Path.components path = .ok names) (hmode : mode ≠ .readCommitted)
    (hlist : ∀ {locked done chains c u v c' n kind found},
      WalkEnd σ t tx mode [(path, names)] chains c u locked done → locked names = some n →
      kind = (c.locks.kindOf? (.node n.id)).getD .readCommitted →
      Listed σ t v c' kind (.children n.id) n found → P n c' v)
    (hleaf : ∀ {c u n}, ¬n.isDirectory → P n c u) :
    Gives σ (acquireOne .empty (.nodes mode (.paths [path] true))) (.new tx) t fun r c u =>
      ∃ locked done, Secured σ t tx mode [(path, names)] r c u locked done ∧
        ((∃ n, locked names = some n ∧ n.isDirectory) ∨ NodesOnly locked c) ∧
        ∀ n, locked names = some n → P n c u := by
  refine (lockPaths_gives (mapM_parsePath hnames) (by simp)).bind ?_
  rintro chains c u hu ⟨locked, done, h⟩
  have hsecured : Secured σ t tx mode [(path, names)] { Resolved.empty with paths := chains } c u
      locked done := ⟨h.walked.toSurvey, h.done_iff, h.grows, h.chains_eq, rfl⟩
  have htargets := Resolved.targets_eq hsecured.survey.prefixClosed hnames hsecured.paths_eq
  change Gives σ (lockChildren _ >>= fun found => pure _) c u _
  by_cases hdir : ∃ n, locked names = some n ∧ n.isDirectory
  case pos =>
    have ⟨n, hn, hdir⟩ := hdir
    rw [hn] at htargets
    rw [Resolved.directories_eq htargets, if_pos hdir]
    refine (lockChildren_listed hsecured.survey.tracks h.walked.toNodesOnly
      (hsecured.target_seen hmode hn)).bind ?_
    rintro _ c' v - ⟨ha, found, hlisted⟩
    refine .pure ⟨locked, done, hsecured.advance ha rfl rfl, .inl ⟨n, hn, hdir⟩, fun m hm => ?_⟩
    cases hn.symm.trans hm
    exact hlist h hn rfl hlisted
  case neg =>
    have hnone : Resolved.directories { Resolved.empty with paths := chains } = [] := by
      cases hn : locked names
      case none => rw [Resolved.directories, htargets, hn]; rfl
      case some n =>
        rw [hn] at htargets
        exact (Resolved.directories_eq htargets).trans (if_neg fun hd => hdir ⟨n, hn, hd⟩)
    rw [hnone]
    refine .pure ⟨locked, done, hsecured.advance (.wait h.walked.tracks le_rfl) rfl rfl,
      .inr h.walked.toNodesOnly, fun n hn => hleaf fun hd => hdir ⟨n, hn, hd⟩⟩

theorem acquireEntries_gives (hnames : Path.components path = .ok names)
    (hmode : mode ≠ .readCommitted) :
    Gives σ (acquireOne .empty (.nodes mode (.paths [path] true))) (.new tx) t fun r c u =>
      ∃ locked done, Secured σ t tx mode [(path, names)] r c u locked done ∧
        ((∃ n, locked names = some n ∧ n.isDirectory) ∨ NodesOnly locked c) ∧
        ∀ n, locked names = some n → Entries σ t u c n :=
  acquireChildren_gives hnames hmode (fun _ _ _ hlisted => ⟨fun _ => ⟨_, _, hlisted⟩⟩)
    fun hleaf => ⟨fun hdir => absurd hdir hleaf⟩

theorem acquireListing_gives (hnames : Path.components path = .ok names) :
    Gives σ (acquireOne .empty (.nodes .read (.paths [path] true))) (.new tx) t fun r c u =>
      ∃ locked done, Secured σ t tx .read [(path, names)] r c u locked done ∧
        ((∃ n, locked names = some n ∧ n.isDirectory) ∨ NodesOnly locked c) ∧
        ∀ n, locked names = some n → Listing σ t u c n := by
  refine acquireChildren_gives hnames (by decide) (fun h hn hkind hlisted => ⟨fun _ => ?_⟩)
    fun hleaf => ⟨fun hdir => absurd hdir hleaf⟩
  have hheld := (h.walked.placed hn).holds (Want.ofPaths_leaf_read (by simp))
  obtain ⟨held, hheld, hle⟩ := LockSet.holds_iff.mp hheld
  rw [hheld, Option.getD_some] at hkind
  exact ⟨_, (hkind ▸ hlisted).weaken hle⟩

-- The blocks of the file at the end of the path are listed.
theorem lockBlocksOf_gives (hmode : mode ≠ .readCommitted)
    (h : Secured σ t₀ tx mode [(path, names)] resolved c t locked done)
    (hnodes : NodesOnly locked c) (hn : locked names = some n) :
    Gives σ (lockBlocks .write .ofResolvedFiles [n.id]) c t fun _ c' u =>
      Advances σ t₀ t u c c' ∧ ∃ found, Listed σ t₀ u c' .write (.blocksOf n.id) n found := by
  rw [lockBlocks, List.mapM_cons]
  refine Gives.bind (P := fun _ c' u => Advances σ t₀ t u c c' ∧
    ∃ found, Listed σ t₀ u c' .write (.blocksOf n.id) n found) ?_ fun _ _ _ _ h => .pure h
  refine (lockList_listed h.survey.tracks hnodes.opened (hnodes.lists _)
    (h.target_seen hmode hn)).bind ?_
  exact fun _ _ _ _ ⟨ha, hl⟩ => .pure ⟨ha, _, hl⟩

theorem acquireContents_gives (hnames : Path.components path = .ok names)
    (hmode : mode ≠ .readCommitted)
    (h : Secured σ t₀ tx mode [(path, names)] resolved c t locked done)
    (hdir : (∃ n, locked names = some n ∧ n.isDirectory) ∨ NodesOnly locked c)
    (hentries : ∀ n, locked names = some n → Entries σ t₀ t c n) :
    Gives σ (acquireOne resolved (.blocks .write .ofResolvedFiles)) c t fun r c' u =>
      Secured σ t₀ tx mode [(path, names)] r c' u locked done ∧
        ∀ n, locked names = some n → Contents σ t₀ u c' n := by
  have htargets := Resolved.targets_eq h.survey.prefixClosed hnames h.paths_eq
  by_cases hfile : ∃ n, locked names = some n ∧ n.isFile
  case pos =>
    have ⟨n, hn, hfile⟩ := hfile
    have hnodes : NodesOnly locked c := by
      obtain ⟨m, hm, hdir⟩ | hnodes := hdir
      · cases hn.symm.trans hm
        simp_all [Node.isFile, Node.isDirectory]
      · exact hnodes
    have hfiles : resolved.files = [n.id] := by
      rw [hn] at htargets
      exact (Resolved.files_eq htargets h.chain_eq).trans (if_pos hfile)
    rw [acquireOne, hfiles]
    refine (lockBlocksOf_gives hmode h hnodes hn).bind ?_
    rintro _ c' u - ⟨ha, hlisted⟩
    refine .pure ⟨h.advance ha rfl rfl, fun m hm => ?_⟩
    cases hn.symm.trans hm
    refine ⟨⟨fun hd => ?_⟩, fun _ => hlisted, fun _ hf => absurd hfile hf⟩
    simp_all [Node.isFile, Node.isDirectory]
  case neg =>
    have hnone : resolved.files = [] := by
      cases hn : locked names
      case none =>
        rw [hn] at htargets
        rw [Resolved.files, htargets, h.chain_eq]
        rfl
      case some n =>
        rw [hn] at htargets
        exact (Resolved.files_eq htargets h.chain_eq).trans (if_neg fun hf => hfile ⟨n, hn, hf⟩)
    rw [acquireOne, hnone]
    refine .pure ⟨h.advance (.wait h.survey.tracks le_rfl) rfl rfl, fun n hn => ?_⟩
    refine ⟨hentries n hn, fun hf => absurd ⟨n, hn, hf⟩ hfile, fun hd _ => ?_⟩
    obtain ⟨m, hm, hdir⟩ | hnodes := hdir
    · cases hn.symm.trans hm
      exact absurd hdir hd
    · exact hnodes.lists _

section

variable {config : TransactionConfig} {name source destination : String} {goal : Position}
  (hlock : config.rowLevelLock)

include hlock

theorem UnitOfWork.lockRows_gives {requests : Except Fault RequestSet} {set : RequestSet}
    {P : Resolved → Context → Nat → Prop} (hset : requests = .ok set)
    (hvalid : set.validate = .ok ()) (hwait : ∀ r c v u, v ≤ u → P r c v → P r c u)
    (h : Gives σ (set.toList.foldlM acquireOne .empty) c t P) :
    Gives σ (lockRows config name requests) c t fun r c' u =>
      ∃ c₀, c' = c₀.endLockPhase ∧ P r c₀ u := by
  rw [lockRows, if_pos hlock, hset]
  have hacquire : Gives σ (acquire set) c t P := by
    rw [acquire, hvalid]
    exact h
  refine Gives.bind (P := fun s c' u => s = set ∧ c' = c ∧ u = t) (.done ⟨set, rfl, rfl, rfl, rfl⟩) ?_
  rintro _ _ _ - ⟨rfl, rfl, rfl⟩
  refine hacquire.bind fun r c₀ v _ hp => ?_
  refine Gives.bind (P := fun r c' u => c' = c₀ ∧ u = v) (Gives.get ⟨rfl, rfl⟩) ?_
  rintro _ _ _ - ⟨rfl, rfl⟩
  refine Gives.bind (P := fun _ c' u => c' = _ ∧ _ ≤ u) (log_gives fun u hu => ⟨rfl, hu⟩) ?_
  rintro _ _ u - ⟨rfl, hu⟩
  refine Gives.bind (P := fun _ c' v => c' = _ ∧ v = u) (change_gives ⟨rfl, rfl⟩) ?_
  rintro _ _ _ - ⟨rfl, rfl⟩
  exact .pure ⟨_, rfl, hwait _ _ _ _ hu hp⟩

theorem UnitOfWork.lockRows_gathers {requests : Except Fault RequestSet} {set : RequestSet}
    {mode : NodeMode} {parsed : List (String × Position)} {taken : List (LockKind × Finder)}
    (hset : requests = .ok set) (hvalid : set.validate = .ok ())
    (h : Gives σ (set.toList.foldlM acquireOne .empty) (.new tx) t fun r c u =>
      ∃ locked done, Gathered σ t tx mode parsed r c u locked done taken) :
    Gives σ (lockRows config name requests) (.new tx) t fun r c u =>
      ∃ c₀, c = c₀.endLockPhase ∧ ∃ locked done,
        Gathered σ t tx mode parsed r c₀ u locked done taken :=
  UnitOfWork.lockRows_gives hlock hset hvalid
    (fun _ _ _ _ hu ⟨locked, done, h⟩ => ⟨locked, done, h.wait hu⟩) h

open UnitOfWork

namespace Namespace

theorem MakeDirectory.lockRows_gives (hnames : Path.components path = .ok names) :
    Gives σ (lockRows config name (requests path)) (.new tx) t fun r c u =>
      ∃ c₀, c = c₀.endLockPhase ∧ ∃ locked done, Gathered σ t tx .writeOnParent [(path, names)] r c₀ u
        locked done [(.write, .register .nodeIdCounter)] := by
  refine UnitOfWork.lockRows_gathers hlock rfl rfl ?_
  refine (acquirePaths_gives (mapM_parsePath hnames) (by simp)).bind ?_
  rintro r c u - ⟨locked, done, h⟩
  have hsorted : (SortedBy.ofList [.nodeIdCounter] : SortedBy (id : Register → Register)).toList =
      [.nodeIdCounter] := rfl
  refine (h.acquireRegisters hsorted (by simp) (by simp)).bind ?_
  exact fun _ _ _ _ h => .pure ⟨locked, done, h⟩

theorem CreateFile.lockRows_gives (hnames : Path.components path = .ok names) :
    Gives σ (lockRows config name (requests path holder)) (.new tx) t fun r c u =>
      ∃ c₀, c = c₀.endLockPhase ∧ ∃ locked done, Gathered σ t tx .writeOnParent [(path, names)] r c₀ u
        locked done [(.write, .register .nodeIdCounter), (.write, .lease holder)] := by
  refine UnitOfWork.lockRows_gathers hlock rfl rfl ?_
  refine (acquirePaths_gives (mapM_parsePath hnames) (by simp)).bind ?_
  rintro r c u - ⟨locked, done, h⟩
  refine (h.acquireLease (by simp)).bind ?_
  rintro r c u - h
  have hsorted : (SortedBy.ofList [.nodeIdCounter] : SortedBy (id : Register → Register)).toList =
      [.nodeIdCounter] := rfl
  refine (h.acquireRegisters hsorted (by simp) (by simp [Finder.key?])).bind ?_
  exact fun _ _ _ _ h => .pure ⟨locked, done, h⟩

theorem AddBlock.lockRows_gives (hnames : Path.components path = .ok names) :
    Gives σ (lockRows config name (requests path holder)) (.new tx) t fun r c u =>
      ∃ c₀, c = c₀.endLockPhase ∧ ∃ locked done, Gathered σ t tx .write [(path, names)] r c₀ u locked
        done [(.write, .register .blockIdCounter), (.write, .register .generationStamp),
          (.read, .lease holder)] := by
  refine UnitOfWork.lockRows_gathers hlock rfl rfl ?_
  refine (acquirePaths_gives (mapM_parsePath hnames) (by simp)).bind ?_
  rintro r c u - ⟨locked, done, h⟩
  refine (h.acquireLease (by simp)).bind ?_
  rintro r c u - h
  have hsorted : (SortedBy.ofList [.blockIdCounter, .generationStamp] :
      SortedBy (id : Register → Register)).toList = [.generationStamp, .blockIdCounter] := rfl
  refine (h.acquireRegisters hsorted (by simp) (by simp [Finder.key?])).bind ?_
  exact fun _ _ _ _ h => .pure ⟨locked, done, h⟩

theorem fileInfo_lockRows_gives (hnames : Path.components path = .ok names) :
    Gives σ (lockRows config name (RequestSet.ofRequests [.nodes .read (.paths [path] false)]))
      (.new tx) t fun r c u => ∃ c₀, c = c₀.endLockPhase ∧ ∃ locked done,
        Gathered σ t tx .read [(path, names)] r c₀ u locked done [] := by
  refine UnitOfWork.lockRows_gathers hlock rfl rfl ?_
  refine (acquirePaths_gives (mapM_parsePath hnames) (by simp)).bind ?_
  exact fun _ _ _ _ h => .pure h

theorem Rename.lockRows_gives (hnames : Path.components source = .ok names)
    (hgoal : Path.components destination = .ok goal) :
    Gives σ (lockRows config name (requests source destination)) (.new tx) t fun r c u =>
      ∃ c₀, c = c₀.endLockPhase ∧ ∃ locked done, Gathered σ t tx .writeOnParent
        [(source, names), (destination, goal)] r c₀ u locked done [] := by
  refine UnitOfWork.lockRows_gathers hlock rfl rfl ?_
  have hparsed : [source, destination].mapM parsePath =
      .ok [(source, names), (destination, goal)] := by
    rw [List.mapM_cons, parsePath_eq hnames]
    change (do return (source, names) :: (← [destination].mapM parsePath)) = _
    rw [mapM_parsePath hgoal]
    rfl
  refine (acquirePaths_gives hparsed (by simp)).bind ?_
  exact fun _ _ _ _ h => .pure h

theorem Delete.lockRows_gives (hnames : Path.components path = .ok names) :
    Gives σ (lockRows config name (requests path)) (.new tx) t fun r c u =>
      ∃ c₀, c = c₀.endLockPhase ∧ ∃ locked done,
        Secured σ t tx .writeOnParent [(path, names)] r c₀ u locked done ∧
        ∀ n, locked names = some n → Contents σ t u c₀ n := by
  refine UnitOfWork.lockRows_gives hlock rfl rfl (fun _ _ _ _ hu ⟨locked, done, h, hcontents⟩ =>
    ⟨locked, done, h.wait hu, fun n hn => (hcontents n hn).wait hu⟩) ?_
  refine (acquireEntries_gives hnames (by decide)).bind ?_
  rintro r c u - ⟨locked, done, hsecured, hdir, hentries⟩
  refine (acquireContents_gives hnames (by decide) hsecured hdir hentries).bind ?_
  exact fun _ _ _ _ ⟨h, hcontents⟩ => .pure ⟨locked, done, h, hcontents⟩

theorem ListDirectory.lockRows_gives (hnames : Path.components path = .ok names) :
    Gives σ (lockRows config name (requests path)) (.new tx) t fun r c u =>
      ∃ c₀, c = c₀.endLockPhase ∧ ∃ locked done,
        Secured σ t tx .read [(path, names)] r c₀ u locked done ∧
        ∀ n, locked names = some n → Listing σ t u c₀ n := by
  refine UnitOfWork.lockRows_gives hlock rfl rfl (fun _ _ _ _ hu ⟨locked, done, h, hentries⟩ =>
    ⟨locked, done, h.wait hu, fun n hn => (hentries n hn).wait hu⟩) ?_
  refine (acquireListing_gives hnames).bind ?_
  exact fun _ _ _ _ ⟨locked, done, h, _, hentries⟩ => .pure ⟨locked, done, h, hentries⟩

end Namespace

end

end NamespaceService
