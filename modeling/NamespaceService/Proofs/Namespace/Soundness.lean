import NamespaceService.Proofs.Namespace.Moments
import NamespaceService.Proofs.Namespace.Outcomes

namespace NamespaceService

open NamespaceService.Action Context Timeline

namespace UnitOfWork

open Namespace

variable {α : Type} {σ : Timeline} {config : TransactionConfig} {name : String}
  {requests : Except Fault RequestSet} {task : Resolved → Task α} {t : Nat}

-- The plan is right for the rows at some moment of the search.
def Attempted.Shows (o : Attempted σ config name requests task t)
    (outcome : Rows → Except Stop (Effect α)) (plan : Except Stop (Effect α)) : Prop :=
  ∃ τ, o.lockedFrom ≤ τ ∧ τ ≤ o.lockedAt ∧ outcome (σ.rows τ) = plan

-- Refusals are not validated, and reads only by a commit of nothing.
structure Attempted.Sound (o : Attempted σ config name requests task t)
    (outcome : Rows → Except Stop (Effect α)) (plan : Except Stop (Effect α)) : Prop where
  planned : o.Planned plan
  refused {error : OperationError} : plan = refuse error → o.Shows outcome plan
  read {a : α} {n : Nat} : plan = .ok ⟨a, []⟩ → o.doneAt ≤ n → σ.Accepts n o.finish.tx [] →
    o.Shows outcome plan
  wrote {effect : Effect α} {n : Nat} : plan = .ok effect → effect.changes ≠ [] → o.doneAt ≤ n →
    σ.Accepts n o.finish.tx effect.changes → outcome (σ.rows n) = plan

end UnitOfWork

theorem Rows.place_of_ne_nil {rows : Rows} {names : Position} (hne : names ≠ []) :
    rows.place names =
      (rows.place names.dropLast).bind (rows.entryNamed? · (names.getLast hne)) := by
  conv_lhs => rw [← List.dropLast_append_getLast hne]
  exact Rows.place_concat

namespace Secured

open Namespace

variable {σ : Timeline} {t u : Nat} {tx : TxId} {mode : NodeMode} {resolved : Resolved}
  {c : Context} {locked : LockedAt} {done : List Position} {path : String} {names p : Position}
  (h : Secured σ t tx mode [(path, names)] resolved c u locked done) (hσ : σ.Tended)

include h hσ

-- What the search has found or missed on its path was so at some moment.
theorem place_at (hp : p <+: names) :
    ∃ τ, t ≤ τ ∧ τ ≤ u ∧ (σ.rows τ).place p = locked p := by
  cases hn : locked p
  case none => exact h.place_of_missed hσ (h.mem_done_iff.mpr ⟨names, by simp, hp⟩) hn
  case some n =>
    have ⟨τ, h₀, hτ, _, hplace⟩ := h.place_of_found hσ.unmoved hn
    exact ⟨τ, h₀, hτ, hplace⟩

theorem ne_nil_of_missed (hnone : locked names = none) : names ≠ [] := by
  rintro rfl
  have ⟨n, hn⟩ := h.root_locked hσ
  cases hnone.symm.trans hn

end Secured

namespace Namespace

section

variable {σ : Timeline} {t u n : Nat} {tx : TxId} {mode : NodeMode} {resolved : Resolved}
  {c : Context} {locked : LockedAt} {done : List Position} {path : String} {names : Position}
  {kind : NodeKind} {counter : Option UInt64} {more changes : List Change} {error : OperationError}
  {effect : Effect NodeId} {place place' : Position → Option Node}

-- A refusal to make a node goes by what is at the end of the path, or else by what is above it.
theorem makeNode_eq_refuse (hnames : Path.components path = .ok names)
    (hne : place names = none → names ≠ [])
    (hplan : makeNode path kind (.along place names) counter more = refuse error) :
    (place names).isSome ∨ place names = none ∧
      ∀ dir, place names.dropLast = some dir → ¬dir.isDirectory := by
  by_cases htaken : (place names).isSome
  case pos => exact .inl htaken
  case neg =>
    have hnone : place names = none := by simpa using htaken
    refine .inr ⟨hnone, fun dir hdir hd => ?_⟩
    have hparent : (Resolution.along place names).parent = some dir :=
      (along_parent (hne hnone)).trans hdir
    rw [makeNode, if_neg (show ¬(Resolution.along place names).target.isSome from htaken)] at hplan
    obtain hplan | ⟨_, -, hplan⟩ := bind_eq_error hplan
    · simp [Resolution.directory, hparent, hd] at hplan
    obtain hplan | ⟨_, -, hplan⟩ := bind_eq_error hplan
    · simp [leafOf, Path.basename?, hnames, List.getLast?_eq_some_getLast (hne hnone)] at hplan
    obtain hplan | ⟨_, -, hplan⟩ := bind_eq_error hplan
    · exact successor_ne_refuse hplan
    · cases hplan

theorem directory_eq_refuse (path : String) {r : Resolution}
    (hdir : ∀ dir, r.parent = some dir → ¬dir.isDirectory) :
    ∃ error, r.directory path = refuse error := by
  rw [Resolution.directory.eq_def]
  cases hparent : r.parent
  case none => exact ⟨_, rfl⟩
  case some dir => exact ⟨_, if_neg (hdir dir hparent)⟩

-- Whatever the counter and the lease were, the refusal was right at some moment.
theorem makeNode_refused (hnames : Path.components path = .ok names)
    (h : Secured σ t tx mode [(path, names)] resolved c u locked done) (hσ : σ.Tended)
    (hplan : makeNode path kind (.along locked names) counter more = refuse error) :
    ∃ τ, t ≤ τ ∧ τ ≤ u ∧ ∀ counter' more',
      makeNode path kind (.along (σ.rows τ).place names) counter' more' = refuse error := by
  obtain htaken | ⟨hnone, hmisplaced⟩ := makeNode_eq_refuse hnames (h.ne_nil_of_missed hσ) hplan
  case inl =>
    have ⟨τ, h₀, hτ, hplace⟩ := h.place_at hσ List.prefix_rfl
    refine ⟨τ, h₀, hτ, fun counter' more' => ?_⟩
    rw [makeNode_taken htaken] at hplan
    rw [makeNode_taken (show ((σ.rows τ).place names).isSome from hplace ▸ htaken), hplan]
  case inr =>
    have hne := h.ne_nil_of_missed hσ hnone
    have ⟨τ, h₀, hτ, hplace⟩ := h.place_at hσ (List.dropLast_prefix names)
    have hfree : (σ.rows τ).place names = none := by
      rw [Rows.place_of_ne_nil hne, hplace]
      cases hdir : locked names.dropLast
      case none => rfl
      case some dir => exact if_neg (hmisplaced dir hdir)
    have hparent : (Resolution.along (σ.rows τ).place names).parent =
        (Resolution.along locked names).parent := by
      rw [along_parent hne, along_parent hne, hplace]
    obtain ⟨error', hdirectory⟩ := directory_eq_refuse path fun dir hdir =>
      hmisplaced dir ((along_parent hne).symm.trans hdir)
    have hdirectory' : (Resolution.along (σ.rows τ).place names).directory path = refuse error' := by
      rw [Resolution.directory, hparent, ← Resolution.directory, hdirectory]
    refine ⟨τ, h₀, hτ, fun counter' more' => ?_⟩
    rw [makeNode_misplaced hnone hdirectory] at hplan
    rw [makeNode_misplaced hfree hdirectory', hplan]

-- What is made is made where it was to be.
theorem makeNode_wrote (hnames : Path.components path = .ok names)
    (h : Secured σ t tx .writeOnParent [(path, names)] resolved c u locked done) (hσ : σ.Tended)
    (hok : σ.Accepts n c.tx changes) (hu : u ≤ n)
    (hplan : makeNode path kind (.along locked names) counter more = .ok effect) :
    Resolution.along (σ.rows n).place names = .along locked names := by
  obtain ⟨dir, name, value, id, htarget, hdir, hname, -⟩ := makeNode_eq_ok hplan
  obtain ⟨hparent, hd⟩ := Resolution.directory_eq_ok hdir
  obtain ⟨hne, hlocked⟩ := along_parent_eq_some hparent
  have hstrong : (Want.ofPaths .writeOnParent [names] names.dropLast).Strong :=
    (Want.ofPaths_parent_write (List.mem_singleton.mpr rfl) hne).strong (by decide)
  have hplace : (σ.rows n).place names.dropLast = some dir :=
    h.place_eq hσ.unmoved hlocked (h.survey.present hok hu hlocked hstrong) rfl
  have hlast := leafOf_eq_ok hnames hname
  have hfree := h.free_end hok hu htarget hlocked hd hlast hstrong
  rw [List.getLast?_eq_some_getLast hne] at hlast
  have hnone : (σ.rows n).place names = none := by
    rw [Rows.place_of_ne_nil hne, hplace, Option.bind_some, Option.some.inj hlast]
    exact Rows.entryNamed?_of_lookup hfree
  have hmissed : locked names = none := htarget
  rw [Resolution.along, Resolution.along, hnone, hmissed, hplace, hlocked]

end

section

variable {σ : Timeline} {config : TransactionConfig} {name path holder : String} {t : Nat}
  (hlock : config.rowLevelLock) (hσ : σ.Tended)

include hσ

open UnitOfWork

-- A node is made soundly by the counter and the lease that the commit finds.
theorem makeNode_sound {requests : Except Fault RequestSet} {task : Resolved → Task NodeId}
    (o : Attempted σ config name requests task t) {outcome : Rows → Except Stop (Effect NodeId)}
    {counter : Option UInt64} {more : List Change} {counterOf : Rows → Option UInt64}
    {moreOf : Rows → List Change} {names : Position} {c : Context} {locked : LockedAt}
    {done : List Position} {kind : NodeKind} (hnames : Path.components path = .ok names)
    (hc : o.locked = c.endLockPhase)
    (h : Secured σ o.lockedFrom o.tx .writeOnParent [(path, names)] o.resolved c o.lockedAt locked
      done)
    (hplanned : o.Planned (makeNode path kind (.along locked names) counter more))
    (houtcome : ∀ rows, outcome rows =
      makeNode path kind (.along rows.place names) (counterOf rows) (moreOf rows))
    (hfound : ∀ {changes n}, σ.Accepts n c.tx changes → o.lockedAt ≤ n →
      counterOf (σ.rows n) = counter ∧ moreOf (σ.rows n) = more) :
    o.Sound outcome (makeNode path kind (.along locked names) counter more) := by
  refine ⟨hplanned, fun hplan => ?refused, fun hplan _ _ => ?read, fun hplan _ hn hok => ?wrote⟩
  case refused =>
    have ⟨τ, h₀, hτ, hrefused⟩ := makeNode_refused hnames h hσ hplan
    exact ⟨τ, h₀, hτ, (houtcome _).trans ((hrefused _ _).trans hplan.symm)⟩
  case read =>
    obtain ⟨_, _, _, _, -, -, -, -, -, heq⟩ := makeNode_eq_ok hplan
    cases heq
  case wrote =>
    have hu := o.works.le.trans hn
    have hok := hplanned.tx_eq hc ▸ hok
    obtain ⟨hcounter, hmore⟩ := hfound hok hu
    rw [houtcome, makeNode_wrote hnames h hσ hok hu hplan, hcounter, hmore]

include hlock

theorem MakeDirectory.sound (o : Attempted σ config name (requests path) (task path) t) :
    ∃ plan, o.Sound (outcome path) plan := by
  obtain ⟨names, c, locked, done, counter, hnames, hc, h, hcounter, hplanned⟩ := attempted hlock o
  refine ⟨_, makeNode_sound hσ o hnames hc h.toSecured hplanned (fun _ => outcome_eq hnames)
    fun hok hu => ⟨?_, rfl⟩⟩
  rw [counterIn, ← lookup_of_lookedUp hcounter rfl (by decide) hok hu]

theorem CreateFile.sound
    (o : Attempted σ config name (requests path holder) (task path holder) t) :
    ∃ plan, o.Sound (outcome path holder) plan := by
  obtain ⟨names, c, locked, done, counter, lease, hnames, hc, h, hcounter, hlease, hplanned⟩ :=
    attempted hlock o
  refine ⟨_, makeNode_sound hσ o hnames hc h.toSecured hplanned (fun _ => outcome_eq hnames)
    fun hok hu => ⟨?_, ?_⟩⟩
  · rw [counterIn, ← lookup_of_lookedUp hcounter rfl (by decide) hok hu]
  · rw [leaseIn, ← lookup_of_lookedUp hlease rfl (by decide) hok hu]

theorem fileInfo_sound (o : Attempted σ config name
      (RequestSet.ofRequests [.nodes .read (.paths [path] false)])
      (fun resolved => do return (← resolve resolved path).target) t) :
    ∃ plan, o.Sound (fileInfoOutcome path) plan := by
  obtain ⟨names, c, locked, done, hnames, hc, h, hplanned⟩ := fileInfo_attempted hlock o
  refine ⟨_, hplanned, fun hplan => ?refused, fun _ _ _ => ?read, fun hplan hne => ?wrote⟩
  case refused => cases hplan
  case read =>
    have ⟨τ, h₀, hτ, hplace⟩ := h.toSecured.place_at hσ List.prefix_rfl
    exact ⟨τ, h₀, hτ, by rw [fileInfoOutcome_eq hnames, hplace]⟩
  case wrote =>
    cases hplan
    exact absurd rfl hne

theorem ListDirectory.sound (o : Attempted σ config name (requests path) (task path) t) :
    ∃ plan, o.Sound (outcome path) plan := by
  obtain ⟨names, c, locked, done, hnames, hc, h, hentries, hplanned⟩ := attempted hlock o
  refine ⟨_, hplanned, fun hplan => ?refused, fun {a n} hplan hn hok => ?read,
    fun hplan hne => ?wrote⟩
  case refused =>
    obtain ⟨τ, h₀, hτ, hplace⟩ := h.place_at hσ List.prefix_rfl
    refine ⟨τ, h₀, hτ, (outcome_eq hnames).trans ?_⟩
    refine plan_congr hplace fun m htarget hdir => ?_
    simp [plan, htarget, hdir, refuse] at hplan
  case read =>
    obtain ⟨m, htarget, hdir, -⟩ := plan_eq_ok hplan
    have hm : locked names = some m := htarget
    obtain ⟨kind, found, hlisted⟩ := (hentries m hm).children hdir
    obtain ⟨τ, h₀, hτ, hfound, _, hrests, _⟩ := hlisted.seen
    -- Nothing has happened to the directory from the moment at which it was listed to the commit.
    rw [hplanned.tx_eq hc] at hok
    have hu := o.works.le.trans hn
    have hend := h.survey.present hok hu hm (Want.ofPaths_leaf_strong (by simp) (by decide))
    have hmem : .node m ∈ (σ.rows τ).toList := by
      rw [SortedBy.mem_iff_find?] at hend ⊢
      exact (hrests.find?_eq hok hu (hτ.trans hu)).symm.trans hend
    refine ⟨τ, h₀, hτ, (outcome_eq hnames).trans ?_⟩
    refine plan_congr ((h.place_eq hσ.unmoved hm hmem rfl).trans hm.symm) fun k htarget' _ => ?_
    cases htarget.symm.trans htarget'
    rw [knownChildren, hlisted.known, childrenIn, ← hfound, Option.getD_some]
  case wrote =>
    obtain ⟨_, -, -, rfl⟩ := plan_eq_ok hplan
    exact absurd rfl hne

theorem AddBlock.sound (o : Attempted σ config name (requests path holder) (task path holder) t) :
    ∃ plan, o.Sound (outcome path holder) plan := by
  obtain ⟨names, c, locked, done, lease, block, stamp, hnames, hc, h, hlease, hafter, hblock, hstamp,
    hplanned⟩ := attempted hlock o
  have htx : o.finish.tx = c.tx := hplanned.tx_eq hc
  refine ⟨_, hplanned, fun {error} hplan => ?refused, fun hplan _ _ => ?read,
    fun hplan _ hn hok => ?wrote⟩
  case refused =>
    by_cases hfile : ∃ m, locked names = some m ∧ m.isFile
    case neg =>
      have ⟨τ, h₀, hτ, hplace⟩ := h.toSecured.place_at hσ List.prefix_rfl
      refine ⟨τ, h₀, hτ, (outcome_eq hnames).trans ?_⟩
      rw [plan_congr (r := .along locked names) hplace]
      exact plan_unfit fun m htarget hm => hfile ⟨m, htarget, hm⟩
    case pos =>
      obtain ⟨m, hm, hfile⟩ := hfile
      have hcovers : ¬(lease.bind Row.lease?).any (·.covers path) := fun hcovers =>
        plan_ne_refuse (by exact hm) hfile hcovers hplan
      -- The lease was looked up last, and had covered no more before.
      have ⟨v, hv, hfound, hseen⟩ := hafter
      have ⟨τ, h₀, hτv, hmem⟩ := hseen names m hm
      have hplace := h.toSecured.place_eq hσ.unmoved hm hmem rfl
      have hbefore : ¬(leaseIn holder (σ.rows τ)).any (·.covers path) := fun hcovers' =>
        hcovers (hfound ▸ hσ.covers_later hτv hcovers')
      refine ⟨τ, h₀, hτv.trans hv, (outcome_eq hnames).trans ?_⟩
      rw [plan_unleased (by exact hplace) hfile hbefore, plan_unleased (by exact hm) hfile hcovers]
  case read =>
    obtain ⟨_, _, _, _, _, -, -, -, -, -, -, -, heq⟩ := plan_eq_ok hplan
    cases heq
  case wrote =>
    have hu := o.works.le.trans hn
    obtain ⟨m, _, _, _, _, htarget, -⟩ := plan_eq_ok hplan
    have hm : locked names = some m := htarget
    have hmem := h.survey.present (htx ▸ hok) hu hm
      (Want.ofPaths_leaf_strong (by simp) (by decide))
    have hplace := h.toSecured.place_eq hσ.unmoved hm hmem rfl
    rw [outcome_eq hnames, leaseIn, counterIn, counterIn,
      ← lookup_of_lookedUp hlease rfl (by decide) (htx ▸ hok) hu,
      ← lookup_of_lookedUp hblock rfl (by decide) (htx ▸ hok) hu,
      ← lookup_of_lookedUp hstamp rfl (by decide) (htx ▸ hok) hu]
    exact plan_congr (hplace.trans hm.symm)

theorem Delete.sound (o : Attempted σ config name (requests path) (task path) t) :
    ∃ plan, o.Sound (outcome path) plan := by
  obtain ⟨names, c, locked, done, hnames, hc, h, hcontents, hplanned⟩ := attempted hlock o
  have hkind {m : Node} (hm : locked names = some m) : m.isDirectory ∨ m.isFile := by
    obtain ⟨τ, _, _, hmem, _⟩ := h.place_of_found hσ.unmoved hm
    exact (hσ.numbered τ).kind hmem
  rw [lockedPlan_eq fun m hm => .inr (hkind hm)] at hplanned
  have htx : o.finish.tx = c.tx := hplanned.tx_eq hc
  refine ⟨_, hplanned, fun {error} hplan => ?refused, fun hplan _ _ => ?read,
    fun hplan hne hn hok => ?wrote⟩
  case refused =>
    obtain ⟨m, htarget, hreason⟩ := plan_eq_refuse hplan
    have hm : locked names = some m := htarget
    by_cases hroot : m.isRoot
    case pos =>
      obtain ⟨τ, h₀, hτ, _, hplace⟩ := h.place_of_found hσ.unmoved hm
      refine ⟨τ, h₀, hτ, (outcome_eq hnames).trans ?_⟩
      rw [plan_root (by exact hplace) hroot, plan_root htarget hroot]
    case neg =>
      obtain ⟨hdir, hentries⟩ := hreason hroot
      obtain ⟨kind, found, hlisted⟩ := (hcontents m hm).children hdir
      obtain ⟨τ, h₀, hτ, hfound, _⟩ := hlisted.seen
      have hknown : c.knownChildren m.id = childrenIn (σ.rows τ) m.id := by
        rw [knownChildren, hlisted.known, childrenIn, hfound, Option.getD_some]
      -- The directory is there when it is listed, for it has an entry.
      obtain ⟨k, hk⟩ := List.exists_mem_of_ne_nil _ (hknown ▸ hentries)
      obtain ⟨hkmem, hkbelow, hkparent⟩ := mem_childrenIn_iff.mp hk
      obtain ⟨d, hdmem, hdid, -⟩ := (hσ.hierarchy τ).parent hkmem hkbelow
      have hid := hdid.trans hkparent
      obtain ⟨_, _, _, hmmem, _⟩ := h.place_of_found hσ.unmoved hm
      refine ⟨τ, h₀, hτ, (outcome_eq hnames).trans ?_⟩
      exact plan_congr htarget (by exact h.place_eq hσ.unmoved hm hdmem hid)
        (hσ.alike hmmem hdmem hid) (fun _ => hknown.symm) fun h => absurd hdir h
  case read =>
    obtain ⟨htarget, -⟩ | ⟨m, -, -, -, heq⟩ := plan_eq_ok hplan
    · obtain ⟨τ, h₀, hτ, hplace⟩ := h.place_at hσ List.prefix_rfl
      refine ⟨τ, h₀, hτ, (outcome_eq hnames).trans ?_⟩
      rw [plan_missing (hplace.trans htarget), plan_missing htarget]
    · have := congrArg Effect.changes heq
      simp at this
  case wrote =>
    have hu := o.works.le.trans hn
    obtain ⟨-, rfl⟩ | ⟨m, htarget, -, hempty, -⟩ := plan_eq_ok hplan
    · exact absurd rfl hne
    have hm : locked names = some m := htarget
    have hmem := h.survey.present (htx ▸ hok) hu hm (Want.ofPaths_leaf_strong (by simp) (by decide))
    have hplace := h.place_eq hσ.unmoved hm hmem rfl
    refine (outcome_eq hnames).trans
      (plan_congr htarget (by exact hplace) (.refl m) (fun hdir => ?_) fun hdir => ?_)
    · obtain ⟨kind, found, hlisted⟩ := (hcontents m hm).children hdir
      have hnone := hempty hdir
      rw [hnone, childrenIn, children_empty hlisted hnone (htx ▸ hok) hu, List.filterMap_nil]
    · obtain ⟨found, hlisted⟩ := (hcontents m hm).blocks ((hkind hm).resolve_left hdir)
      rw [knownBlocks, hlisted.known, Option.getD_some, blocksIn,
        ← lookupList_of_listed hlisted (.inr rfl) (by decide) (htx ▸ hok) hu]

end

end Namespace

end NamespaceService
