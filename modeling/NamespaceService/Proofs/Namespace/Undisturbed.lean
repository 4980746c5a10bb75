import NamespaceService.Proofs.Namespace.Alone
import NamespaceService.Proofs.Namespace.Coverage
import NamespaceService.Proofs.Namespace.Outcomes

namespace NamespaceService

open NamespaceService.Action Context Stage

namespace Timeline

variable {σ : Timeline} {rows : Rows}

theorem Steady.unmoved (hσ : σ.Steady rows) (hrows : rows.Hierarchy) : σ.Unmoved where
  hierarchy n := hσ n ▸ hrows
  alike {t u m n} hn hm hid := by
    rw [hσ] at hn hm
    exact Rows.node_eq_of_mem hm hn hid ▸ .refl n

end Timeline

namespace Context

variable {σ : Timeline} {t u : Nat} {c : Context} {kind : LockKind} {finder : Finder} {rows : Rows}

theorem LookedUp.steady {found : Option Row} (h : LookedUp σ t u c kind finder found)
    (hσ : σ.Steady rows) : found = rows.lookup finder :=
  have ⟨τ, _, _, hfound, _⟩ := h.seen
  hσ τ ▸ hfound

theorem Listed.steady {n : Node} {found : List Row} (h : Listed σ t u c kind finder n found)
    (hσ : σ.Steady rows) : found = rows.lookupList finder :=
  have ⟨τ, _, _, hfound, _⟩ := h.seen
  hσ τ ▸ hfound

end Context

namespace Secured

open Namespace

variable {σ : Timeline} {t u : Nat} {tx : TxId} {mode : NodeMode}
  {parsed : List (String × Position)} {resolved : Resolved} {c : Context} {locked : LockedAt}
  {done : List Position} {names p : Position} {n : Node} {rows : Rows} {key : Key}
  (h : Secured σ t tx mode parsed resolved c u locked done) (hσ : σ.Steady rows)

include h hσ

theorem place_of_locked (hrows : rows.Hierarchy) (hn : locked p = some n) :
    rows.place p = some n :=
  have ⟨τ, _, _, _, hplace⟩ := h.place_of_found (hσ.unmoved hrows) hn
  hσ τ ▸ hplace

-- The walk has locked what is at the position, and nothing is there if it has not.
theorem locked_eq_place (hrows : rows.Hierarchy) (hp : p ∈ done) : locked p = rows.place p := by
  cases hlocked : locked p
  case some n => exact (h.place_of_locked hσ hrows hlocked).symm
  case none =>
    symm
    induction p using List.reverseRecOn
    case nil =>
      obtain ⟨q, -, hne, hfinder, -⟩ | ⟨τ, hsettled⟩ := h.survey.answered hp _ LockedAt.finder?_nil
      · cases LockedAt.key?_of_finder? hne hfinder
      · have hlookup := hsettled.lookup
        rw [hσ τ, hlocked] at hlookup
        rw [Rows.place, List.foldl_nil, hlookup]
        rfl
    case append_singleton q name ih =>
      have hq : q ∈ done := by simpa using h.survey.closed hp (by simp)
      cases hdir : locked q
      case none => exact Rows.place_none_of_above (ih hq hdir) (List.prefix_append q [name])
      case some dir =>
        have hplace := h.place_of_locked hσ hrows hdir
        rw [Rows.place_concat, hplace, Option.bind_some]
        by_cases hd : dir.isDirectory
        case neg => rw [Rows.entryNamed?, if_neg hd]
        case pos =>
          have hfinder : locked.finder? (q ++ [name]) = some (.nodeNamed dir.id name) := by
            simp [LockedAt.finder?, hdir, hd]
          obtain ⟨r, -, hne, hsame, -⟩ | ⟨τ, hsettled⟩ := h.survey.answered hp _ hfinder
          · -- The same lookup at another position would be one in the same directory.
            have hr : r ≠ [] := by
              rintro rfl
              cases hsame
            obtain ⟨dir', name', hdir', -, hlast, heq⟩ := LockedAt.finder?_eq_some hr hsame
            obtain ⟨hid, rfl⟩ := Finder.nodeNamed.inj heq
            have hplace' := h.place_of_locked hσ hrows hdir'
            refine absurd ?_ hne
            rw [← List.dropLast_append_getLast? _ hlast,
              Rows.place_injective hplace' hplace hid.symm]
          · have hlookup := hsettled.lookup
            rw [hσ τ, hlocked] at hlookup
            exact Rows.entryNamed?_of_lookup hlookup

theorem along_eq (hrows : rows.Hierarchy) (hnames : names ∈ parsed.map Prod.snd) :
    Resolution.along locked names = .along rows.place names := by
  have hlocked {p : Position} (hp : p <+: names) : locked p = rows.place p :=
    h.locked_eq_place hσ hrows (h.mem_done_iff.mpr ⟨names, hnames, hp⟩)
  rw [Resolution.along, Resolution.along, hlocked (List.prefix_refl names),
    hlocked (List.dropLast_prefix names)]

end Secured

namespace Gathered

variable {σ : Timeline} {t u : Nat} {tx : TxId} {path : String} {names q : Position}
  {resolved : Resolved} {c c' : Context} {locked : LockedAt} {done : List Position}
  {lookups : List (LockKind × Finder)} {n dir new : Node} {rows : Rows}
  (h : Gathered σ t tx .writeOnParent [(path, names)] resolved c u locked done lookups)
  (hσ : σ.Steady rows) (hrows : rows.Hierarchy)

include h hσ hrows

-- The directories above the one that an entry is made in have been read, and nothing more.
theorem kindOf_above (hon : q <+: names.dropLast) (hne : q ≠ names.dropLast)
    (hn : locked q = some n) : c.locks.kindOf? (.node n.id) = some .readCommitted := by
  have hwant := Want.ofPaths_above hon hne
  have hread : c.locks.holds (.node n.id) .readCommitted := by
    refine (h.survey.placed hn).holds ?_
    rw [List.map_singleton, hwant]
    exact ⟨_, rfl, LockKind.le_refl _⟩
  obtain ⟨held, hheld, -⟩ := LockSet.holds_iff.mp hread
  by_contra hne'
  have hstrong : c.locks.holds (.node n.id) .read := by
    refine LockSet.holds_iff.mpr ⟨held, hheld, LockKind.read_le_iff.mpr fun heq => hne' ?_⟩
    rw [hheld, heq]
  obtain ⟨p, -, hallows, ⟨m, hm, hkey⟩ | ⟨rfl, hnone⟩⟩ := h.held hstrong
  · cases Rows.place_injective (h.place_of_locked hσ hrows hm) (h.place_of_locked hσ hrows hn)
      (Key.node.inj hkey).symm
    rw [List.map_singleton, hwant] at hallows
    obtain htyped | ⟨k, hk, hle⟩ := hallows
    · cases htyped
    · cases hk
      exact absurd hle (by decide)
  · have ⟨_, hroot⟩ := h.survey.prefixClosed.of_prefix hn List.nil_prefix
    cases hnone.symm.trans hroot

variable (hne : names ≠ []) (hdir : locked names.dropLast = some dir) (hbelow : ¬new.isRoot)
  (hparent : new.parent = dir.id)

include hdir hbelow hparent

-- A new node that takes the id of a directory further up would take it away from there.
theorem uncovered?_crossing (hcrosses : rows.crosses names new.id) :
    ∃ guard, c.uncovered? (.upsert (.node new)) = some guard ∧
      c.locks.kindOf? guard = some .readCommitted := by
  obtain ⟨q, m, hq, hprefix, hqne, hplace, hid⟩ := Rows.crosses_iff.mp hcrosses
  have hdone : q ∈ done :=
    h.mem_done_iff.mpr ⟨names, by simp, hprefix.trans (List.dropLast_prefix names)⟩
  have hm : locked q = some m := (h.locked_eq_place hσ hrows hdone).trans hplace
  have ⟨above, habove, horigin⟩ := h.origin_of_found (hσ.unmoved hrows) hm hq
  have hane : q.dropLast ≠ names.dropLast := fun heq => by
    have hlength : q.dropLast.length = q.length - 1 := List.length_dropLast
    have := List.length_pos_iff.mpr hq
    rw [heq] at hlength
    exact absurd hprefix.length_le (by omega)
  have hdistinct : above.id ≠ dir.id := fun hsame => hane <| Rows.place_injective
    (h.place_of_locked hσ hrows habove) (h.place_of_locked hσ hrows hdir) hsame
  have hkind := h.kindOf_above hσ hrows hprefix hqne hm
  have hkind' := h.kindOf_above hσ hrows ((List.dropLast_prefix q).trans hprefix) hane habove
  have howner : (Row.node new).owner? = some (.node dir.id) :=
    Row.owner?_of_isEntryOf (Rows.isEntryOf_iff.mpr ⟨hbelow, hparent⟩)
  rw [hid] at hkind horigin
  refine ⟨.node above.id, ?_, hkind'⟩
  simp [uncovered?, guardsOf, writeLocked, Change.key, Row.key, hkind, hkind', horigin, howner,
    hdistinct]

include hne

theorem uncovered?_new (htarget : locked names = none)
    (hlookups : ∀ lookup ∈ lookups, ∀ id, lookup.2.key? ≠ some (.node id))
    (hcrosses : ¬rows.crosses names new.id) : c.uncovered? (.upsert (.node new)) = none := by
  have hholds := h.holds_parent (by simp) hne hdir
  by_cases hknown : ∃ p m, locked p = some m ∧ m.id = new.id
  case pos =>
    obtain ⟨p, m, hm, hid⟩ := hknown
    have hplace := h.place_of_locked hσ hrows hm
    have hon : p <+: names.dropLast := by
      have ⟨_, hmem, hprefix⟩ := h.mem_done_iff.mp (h.survey.done_of hm)
      cases List.mem_singleton.mp hmem
      refine Position.prefix_dropLast hprefix fun heq => ?_
      cases htarget.symm.trans (heq ▸ hm)
    by_cases hp : p = names.dropLast
    case pos =>
      cases hdir.symm.trans (hp ▸ hm)
      exact uncovered?_written (show c.locks.holds (.node new.id) .write from hid ▸ hholds)
    case neg =>
      refine absurd (Rows.crosses_iff.mpr ⟨p, m, ?_, hon, hp, hplace, hid⟩) hcrosses
      rintro rfl
      cases hrows.place_nil.symm.trans hplace
      exact hbelow (Rows.isRoot_iff.mpr hid.symm)
  case neg =>
    have horigin : c.origins (.node new.id) = none := h.origin_none
      (fun p m hm hkey => hknown ⟨p, m, hm, (Key.node.inj hkey).symm⟩)
      fun lookup hmem => hlookups lookup hmem _
    refine uncovered?_made (Row.owner?_of_isEntryOf (Rows.isEntryOf_iff.mpr ⟨hbelow, hparent⟩)) ?_
      hholds
    simp [Row.key, horigin]

end Gathered

namespace Namespace

section

variable {σ : Timeline} {t u : Nat} {tx : TxId} {path : String} {names : Position}
  {resolved : Resolved} {c c' : Context} {locked : LockedAt} {done : List Position}
  {lookups : List (LockKind × Finder)} {rows : Rows} {kind : NodeKind} {counter : Option UInt64}
  {more : List Change} {effect : Effect NodeId}

-- Locks on the directory and on the counter cover a new node, unless it replaces one that has only
-- been read.
theorem makeNode_covered?
    (h : Gathered σ t tx .writeOnParent [(path, names)] resolved c u locked done lookups)
    (hσ : σ.Steady rows) (hrows : rows.Hierarchy)
    (hlookups : ∀ lookup ∈ lookups, ∀ id, lookup.2.key? ≠ some (.node id))
    (hcounter : c.locks.holds (.register .nodeIdCounter) .write)
    (hmore : ∀ change ∈ more, c.locks.holds change.key .write)
    (hplan : makeNode path kind (.along locked names) counter more = .ok effect)
    (hedits : c.endLockPhase.Edits c') (hchanges : c'.changes = effect.changes) :
    c'.covered? = if rows.crosses names effect.result then
      .error (.lockUpgrade (.node effect.result) LockKind.readCommitted.text) else .ok () := by
  obtain ⟨dir, name, value, id, htarget, hdirectory, -, -, hnext, rfl⟩ := makeNode_eq_ok hplan
  obtain ⟨hparent, -⟩ := Resolution.directory_eq_ok hdirectory
  obtain ⟨hne, hdir⟩ := along_parent_eq_some hparent
  have hbelow : ¬(⟨⟨id⟩, dir.id, name, kind, []⟩ : Node).isRoot := fun hroot => by
    have hid := congrArg (fun id : NodeId => id.value.toNat) (Rows.isRoot_iff.mp hroot)
    have hsucc := Rows.toNat_of_next? hnext
    simp [NodeId.root] at hid
    omega
  have hsplit : c'.changes = [.upsert (.register ⟨.nodeIdCounter, id⟩)] ++
      .upsert (.node ⟨⟨id⟩, dir.id, name, kind, []⟩) :: more := hchanges
  have hregister : ∀ change ∈ [Change.upsert (.register ⟨.nodeIdCounter, id⟩)],
      c'.uncovered? change = none := fun change hchange => by
    rw [List.mem_singleton.mp hchange]
    exact hedits.uncovered?_eq.trans (uncovered?_written hcounter)
  split
  case isTrue hcrosses =>
    have ⟨guard, huncovered, hkind⟩ := h.uncovered?_crossing hσ hrows hdir hbelow rfl hcrosses
    have hlocks : c'.locks = c.locks := hedits.locks
    rw [covered?_of_uncovered hedits.sealed hsplit hregister (hedits.uncovered?_eq.trans huncovered),
      hlocks, hkind]
    rfl
  case isFalse hcrosses =>
    refine covered?_of_forall fun change hchange => ?_
    rw [hsplit] at hchange
    obtain hchange | hchange := List.mem_append.mp hchange
    · exact hregister change hchange
    · refine hedits.uncovered?_eq.trans ?_
      obtain rfl | hchange := List.mem_cons.mp hchange
      · exact h.uncovered?_new hσ hrows hne hdir hbelow rfl htarget hlookups hcrosses
      · exact uncovered?_written (hmore change hchange)

-- What has been listed of a node is what the rows have.
theorem Delete.lockedPlan_steady (hσ : σ.Steady rows)
    (hcontents : ∀ n, locked names = some n → Contents σ t u c n) :
    lockedPlan path (.along locked names) (childrenIn rows) (blocksIn rows) =
      lockedPlan path (.along locked names) c.knownChildren c.knownBlocks := by
  refine lockedPlan_congr fun m htarget => ⟨fun hdir => ?_, fun hfile => ?_⟩
  · obtain ⟨kind, found, hlisted⟩ := (hcontents m htarget).children hdir
    rw [knownChildren, hlisted.known, hlisted.steady hσ, childrenIn, Option.getD_some]
  · obtain ⟨found, hlisted⟩ := (hcontents m htarget).blocks hfile
    rw [knownBlocks, hlisted.known, hlisted.steady hσ, blocksIn, Option.getD_some]

-- The lock on the directory covers a removal, and the locks on a file's blocks cover theirs.
theorem Delete.lockedPlan_covered? {effect : Effect Bool}
    (h : Secured σ t tx .writeOnParent [(path, names)] resolved c u locked done)
    (hσ : σ.Steady rows) (hrows : rows.Hierarchy)
    (hcontents : ∀ n, locked names = some n → Contents σ t u c n)
    (heffect : lockedPlan path (.along locked names) c.knownChildren c.knownBlocks = .ok effect)
    (hedits : c.endLockPhase.Edits c') (hchanges : c'.changes = effect.changes) :
    c'.covered? = .ok () := by
  refine covered?_of_forall fun change hchange => hedits.uncovered?_eq.trans ?_
  rw [hchanges] at hchange
  obtain ⟨hplan, hkind⟩ := lockedPlan_eq_ok heffect
  obtain ⟨-, rfl⟩ | ⟨m, htarget, hroot, -, rfl⟩ := plan_eq_ok hplan
  · cases hchange
  have hlocked : locked names = some m := htarget
  obtain hchange | hchange := List.mem_append.mp hchange
  · obtain ⟨block, hblock, rfl⟩ := List.mem_map.mp hchange
    by_cases hdir : m.isDirectory
    case pos => simp [hdir] at hblock
    case neg =>
      have hfile := ((hkind m htarget).resolve_left hroot).resolve_left hdir
      obtain ⟨found, hlisted⟩ := (hcontents m hlocked).blocks hfile
      rw [if_neg hdir, knownBlocks, hlisted.known, Option.getD_some] at hblock
      obtain ⟨row, hrow, hblock⟩ := List.mem_filterMap.mp hblock
      cases row <;> cases hblock
      exact uncovered?_written (hlisted.holds hrow)
  · cases List.mem_singleton.mp hchange
    have hne : names ≠ [] := by
      rintro rfl
      cases hrows.place_nil.symm.trans (h.place_of_locked hσ hrows hlocked)
      exact hroot rfl
    obtain ⟨dir, hdir, horigin⟩ := h.origin_of_found (hσ.unmoved hrows) hlocked hne
    exact uncovered?_removed horigin (h.holds_parent (by simp) hne hdir)

end

open UnitOfWork

theorem guardId_comes {σ : Timeline} {config : TransactionConfig} {name : String}
    {requests : Except Fault RequestSet} {task : Resolved → Task NodeId} {t : Nat}
    {o : Attempted σ config name requests task t} {unit : UnitOfWork Unit NodeId} {s : Store}
    {names : Position} {made : Except Stop (Effect NodeId)} (h : o.Planned made)
    (hcovered : ∀ effect, made = .ok effect →
      o.finish.covered? = if s.rows.crosses names effect.result then
        .error (.lockUpgrade (.node effect.result) LockKind.readCommitted.text) else .ok ())
    (hfinal : Final made) (hcomes : Final (verdict (.ok o.result) o.finish) →
      Comes config unit s (verdict (.ok o.result) o.finish)) :
    Comes config unit s (guardId s.rows names made) := by
  cases made
  case error stop => exact h.comes (fun effect heq => by cases heq) hfinal hcomes
  case ok effect =>
    have hcovered := hcovered effect rfl
    change Comes config unit s (if _ then _ else _)
    split
    case isTrue hcrosses =>
      rw [if_pos hcrosses] at hcovered
      rw [h.verdict_uncovered rfl hcovered] at hcomes
      exact hcomes (.error rfl)
    case isFalse hcrosses =>
      rw [if_neg hcrosses] at hcovered
      refine h.comes (fun other heq => ?_) hfinal hcomes
      cases heq
      exact hcovered

section

variable {s : Store} {config : TransactionConfig} {path holder source destination : String}
  (hs : s.Calm) (hrows : s.rows.Hierarchy) (hlock : config.rowLevelLock)

include hs hrows hlock

theorem MakeDirectory.comes_locked :
    Comes config (makeDirectory path) s (lockedOutcome path s.rows) := by
  cases hnames : Path.components path
  case error e =>
    rw [lockedOutcome, namesOf_malformed hnames]
    exact comes_malformed hs (fun _ => makeDirectory_reads) fun c => lockRows_malformed hlock rfl rfl
      rfl (mapM_parsePath_malformed [] (by simp) hnames)
  case ok names =>
    have ⟨σ, o, hσ, hcomes⟩ := exists_attempted hs (fun _ => makeDirectory_reads)
      (show makeDirectory path = .ofTask _ _ _ from rfl) fun σ tx t => ⟨_, lockRows_gives hlock hnames⟩
    obtain ⟨names', c, locked, done, counter, hnames', hc, h, hcounter, hplanned⟩ := attempted hlock o
    cases hnames.symm.trans hnames'
    have hplan : outcome path s.rows = plan path (.along locked names) (valueOf counter) := by
      rw [outcome_eq hnames, h.along_eq hσ hrows (by simp), hcounter.steady hσ]
      rfl
    rw [lockedOutcome, namesOf_eq hnames, hplan]
    refine guardId_comes hplanned (fun effect heffect => ?_) .makeNode hcomes
    exact makeNode_covered? h hσ hrows (by simp [Finder.key?]) (hcounter.holds rfl) (by simp) heffect
      (hc ▸ hplanned.edits) (hplanned.changes heffect)

theorem CreateFile.comes_locked :
    Comes config (createFile path holder) s (lockedOutcome path holder s.rows) := by
  cases hnames : Path.components path
  case error e =>
    rw [lockedOutcome, namesOf_malformed hnames]
    exact comes_malformed hs (fun _ => createFile_reads) fun c => lockRows_malformed hlock rfl rfl
      rfl (mapM_parsePath_malformed [] (by simp) hnames)
  case ok names =>
    have ⟨σ, o, hσ, hcomes⟩ := exists_attempted hs (fun _ => createFile_reads)
      (show createFile path holder = .ofTask _ _ _ from rfl) fun σ tx t => ⟨_, lockRows_gives hlock hnames⟩
    obtain ⟨names', c, locked, done, counter, lease, hnames', hc, h, hcounter, hlease, hplanned⟩ :=
      attempted hlock o
    cases hnames.symm.trans hnames'
    have hplan : outcome path holder s.rows =
        plan path holder (.along locked names) (valueOf counter) (lease.bind Row.lease?) := by
      rw [outcome_eq hnames, h.along_eq hσ hrows (by simp), hcounter.steady hσ, hlease.steady hσ]
      rfl
    rw [lockedOutcome, namesOf_eq hnames, hplan]
    refine guardId_comes hplanned (fun effect heffect => ?_) .makeNode hcomes
    refine makeNode_covered? h hσ hrows (by simp [Finder.key?]) (hcounter.holds rfl)
      (fun change hchange => ?_) heffect (hc ▸ hplanned.edits) (hplanned.changes heffect)
    have hkey : change.key = .lease holder := by
      rw [List.mem_singleton.mp hchange, hlease.steady hσ]
      exact congrArg Key.lease leaseOf_holder
    exact hkey ▸ hlease.holds rfl

theorem fileInfo_comes_locked : Comes config (fileInfo path) s (fileInfoOutcome path s.rows) := by
  cases hnames : Path.components path
  case error e =>
    rw [fileInfoOutcome, resolveIn_malformed hnames]
    exact comes_malformed hs Session.NamespaceOperation.fileInfo_reads fun c => lockRows_malformed
      hlock rfl rfl rfl (mapM_parsePath_malformed [] (by simp) hnames)
  case ok names =>
    obtain ⟨σ, o, hσ, hcomes⟩ := exists_attempted hs Session.NamespaceOperation.fileInfo_reads
      (show fileInfo path = .ofTask _ _ _ from rfl)
      fun σ tx t => ⟨_, fileInfo_lockRows_gives hlock hnames⟩
    obtain ⟨names', c, locked, done, hnames', hc, h, hplanned⟩ := fileInfo_attempted hlock o
    cases hnames.symm.trans hnames'
    have hplace := h.locked_eq_place hσ hrows (h.mem_done_iff.mpr ⟨names, by simp, List.prefix_rfl⟩)
    rw [fileInfoOutcome_eq hnames, ← hplace]
    refine hplanned.comes (fun effect heffect => ?_) .ok hcomes
    cases heffect
    exact covered?_of_forall (by simp [hplanned.changes rfl])

theorem ListDirectory.comes_locked :
    Comes config (listDirectory path) s (outcome path s.rows) := by
  cases hnames : Path.components path
  case error e =>
    rw [outcome, resolveIn_malformed hnames]
    exact comes_malformed hs (fun _ => listDirectory_reads) fun c => lockRows_malformed hlock rfl rfl
      rfl (mapM_parsePath_malformed [] (by simp) hnames)
  case ok names =>
    obtain ⟨σ, o, hσ, hcomes⟩ := exists_attempted hs (fun _ => listDirectory_reads)
      (show listDirectory path = .ofTask _ _ _ from rfl) fun σ tx t => ⟨_, lockRows_gives hlock hnames⟩
    obtain ⟨names', c, locked, done, hnames', hc, h, hentries, hplanned⟩ := attempted hlock o
    cases hnames.symm.trans hnames'
    have hplan : outcome path s.rows = plan path (.along locked names) c.knownChildren := by
      rw [outcome_eq hnames, ← h.along_eq hσ hrows (by simp)]
      refine plan_congr rfl fun m htarget hdir => ?_
      obtain ⟨kind, found, hlisted⟩ := (hentries m htarget).children hdir
      rw [knownChildren, hlisted.known, hlisted.steady hσ, childrenIn, Option.getD_some]
    rw [hplan]
    refine hplanned.comes (fun effect heffect => ?_) .listDirectory hcomes
    obtain ⟨_, -, -, rfl⟩ := plan_eq_ok heffect
    exact covered?_of_forall (by simp [hplanned.changes heffect])

theorem AddBlock.comes_locked :
    Comes config (addBlock path holder) s (outcome path holder s.rows) := by
  cases hnames : Path.components path
  case error e =>
    rw [outcome, resolveIn_malformed hnames]
    exact comes_malformed hs (fun _ => addBlock_reads) fun c => lockRows_malformed hlock rfl rfl
      rfl (mapM_parsePath_malformed [] (by simp) hnames)
  case ok names =>
    obtain ⟨σ, o, hσ, hcomes⟩ := exists_attempted hs (fun _ => addBlock_reads)
      (show addBlock path holder = .ofTask _ _ _ from rfl) fun σ tx t => ⟨_, lockRows_gives hlock hnames⟩
    obtain ⟨names', c, locked, done, lease, block, stamp, hnames', hc, h, hlease, -, hblock, hstamp,
      hplanned⟩ := attempted hlock o
    cases hnames.symm.trans hnames'
    have hplan : outcome path holder s.rows = plan path holder (.along locked names)
        (lease.bind Row.lease?) (valueOf block) (valueOf stamp) := by
      rw [outcome_eq hnames, h.along_eq hσ hrows (by simp), hlease.steady hσ, hblock.steady hσ,
        hstamp.steady hσ]
      rfl
    rw [hplan]
    refine hplanned.comes (fun effect heffect => ?_) .addBlock hcomes
    obtain ⟨m, value, id, _, _, htarget, -, -, -, -, -, -, rfl⟩ := plan_eq_ok heffect
    have hholds := h.toSecured.holds_end (by simp) htarget
    have hedits : c.endLockPhase.Edits o.finish := hc ▸ hplanned.edits
    refine covered?_of_forall fun change hchange => hedits.uncovered?_eq.trans ?_
    rw [hplanned.changes heffect] at hchange
    obtain rfl | rfl | rfl | rfl : change = _ ∨ change = _ ∨ change = _ ∨ change = _ := by
      simpa using hchange
    · exact uncovered?_written (hblock.holds rfl)
    · exact uncovered?_written (hstamp.holds rfl)
    · exact uncovered?_written hholds
    · refine uncovered?_made rfl ?_ hholds
      have horigin : c.origins (.block ⟨id⟩) = none :=
        h.origin_none (by simp) (by simp [Finder.key?])
      simp [Row.key, Block.fresh, horigin]

theorem Delete.comes_locked : Comes config (delete path) s (lockedOutcome path s.rows) := by
  cases hnames : Path.components path
  case error e =>
    rw [lockedOutcome, resolveIn_malformed hnames]
    exact comes_malformed hs (fun _ => delete_reads) fun c => lockRows_malformed hlock rfl rfl
      rfl (mapM_parsePath_malformed [] (by simp) hnames)
  case ok names =>
    obtain ⟨σ, o, hσ, hcomes⟩ := exists_attempted hs (fun _ => delete_reads)
      (show delete path = .ofTask _ _ _ from rfl) fun σ tx t => ⟨_, lockRows_gives hlock hnames⟩
    obtain ⟨names', c, locked, done, hnames', hc, h, hcontents, hplanned⟩ := attempted hlock o
    cases hnames.symm.trans hnames'
    have hplan : lockedOutcome path s.rows =
        lockedPlan path (.along locked names) c.knownChildren c.knownBlocks := by
      rw [lockedOutcome_eq hnames, ← h.along_eq hσ hrows (by simp)]
      exact lockedPlan_steady hσ hcontents
    rw [hplan]
    refine hplanned.comes (fun effect heffect => ?_) .lockedDelete hcomes
    exact lockedPlan_covered? h hσ hrows hcontents heffect (hc ▸ hplanned.edits)
      (hplanned.changes heffect)

theorem Rename.comes_locked :
    Comes config (rename source destination) s (outcome source destination s.rows) := by
  cases hstart : Path.components source
  case error e =>
    rw [outcome, namesOf_malformed hstart]
    exact comes_malformed hs (fun _ => rename_reads) fun c => lockRows_malformed hlock rfl rfl
      rfl (mapM_parsePath_malformed [] (by simp) hstart)
  case ok start =>
    cases hgoal : Path.components destination
    case error e =>
      rw [outcome, namesOf_eq hstart, namesOf_malformed hgoal]
      exact comes_malformed hs (fun _ => rename_reads) fun c => lockRows_malformed hlock rfl rfl
        rfl (mapM_parsePath_malformed [source] (by simp [hstart]) hgoal)
    case ok goal =>
      obtain ⟨σ, o, hσ, hcomes⟩ := exists_attempted hs (fun _ => rename_reads)
        (show rename source destination = .ofTask _ _ _ from rfl)
        fun σ tx t => ⟨_, lockRows_gives hlock hstart hgoal⟩
      obtain ⟨start', goal', c, locked, done, hstart', hgoal', hc, h, hplanned⟩ := attempted hlock o
      cases hstart.symm.trans hstart'
      cases hgoal.symm.trans hgoal'
      have hplan : outcome source destination s.rows =
          plan source destination start goal (.along locked start) (.along locked goal) := by
        rw [outcome_eq hstart hgoal, h.along_eq hσ hrows (by simp), h.along_eq hσ hrows (by simp)]
      rw [hplan]
      refine hplanned.comes (fun effect heffect => ?_) .rename hcomes
      have hedits : c.endLockPhase.Edits o.finish := hc ▸ hplanned.edits
      refine covered?_of_forall fun change hchange => hedits.uncovered?_eq.trans ?_
      rw [hplanned.changes heffect] at hchange
      obtain rfl | ⟨n, dir, name, hne, htarget, -, hdirectory, -, rfl⟩ := plan_eq_ok heffect
      · cases hchange
      cases List.mem_singleton.mp hchange
      have hn : locked start = some n := htarget
      obtain ⟨hne', hdir⟩ := along_parent_eq_some (Resolution.directory_eq_ok hdirectory).1
      obtain ⟨above, habove, horigin⟩ := h.origin_of_found (hσ.unmoved hrows) hn hne
      have hbelow : ¬n.isRoot := fun hroot => hne <| Rows.place_injective
        (h.place_of_locked hσ hrows hn) hrows.place_nil (Rows.isRoot_iff.mp hroot)
      exact uncovered?_moved (Row.owner?_of_isEntryOf (Rows.isEntryOf_iff.mpr ⟨hbelow, rfl⟩)) horigin
        (h.holds_parent (by simp) hne habove) (h.holds_parent (by simp) hne' hdir)

end

end Namespace

end NamespaceService
