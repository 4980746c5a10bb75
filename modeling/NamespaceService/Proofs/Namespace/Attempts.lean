import NamespaceService.Proofs.Namespace.Plans
import NamespaceService.Proofs.Transaction.Attempt
import NamespaceService.Proofs.Transaction.Validation

namespace NamespaceService

open NamespaceService.Action Context Stage

namespace UnitOfWork

variable {α : Type} {σ : Timeline} {config : TransactionConfig} {name : String}
  {requests : Except Fault RequestSet} {task : Resolved → Task α} {t : Nat}

-- The attempt's task ends as planned.
structure Attempted.Planned (o : Attempted σ config name requests task t)
    (plan : Except Stop (Namespace.Effect α)) : Prop where
  result : o.result = plan.map Namespace.Effect.result
  edits : o.locked.Edits o.finish
  changes {effect : Namespace.Effect α} : plan = .ok effect → o.finish.changes = effect.changes

theorem Attempted.planned (o : Attempted σ config name requests task t)
    {plan : Except Stop (Namespace.Effect α)}
    (h : Namespace.Follows none (task o.resolved) o.locked plan) : o.Planned plan := by
  obtain ⟨c', hy, hedits, hchanges⟩ := h
  have heq : (o.result, o.finish) = (plan.map Namespace.Effect.result, c') := hy.runs o.works
  have ⟨hresult, hfinish⟩ := Prod.ext_iff.mp heq
  simp only at hresult hfinish
  exact ⟨hresult, hfinish ▸ hedits, fun hplan => hfinish ▸ hchanges _ hplan⟩

theorem Attempted.Planned.effect {o : Attempted σ config name requests task t}
    {plan : Except Stop (Namespace.Effect α)} (h : o.Planned plan) {a : α}
    (hresult : o.result = .ok a) :
    ∃ effect, plan = .ok effect ∧ effect.result = a ∧ o.finish.changes = effect.changes := by
  have hmap := h.result.symm.trans hresult
  cases plan
  case error => cases hmap
  case ok effect => exact ⟨effect, rfl, Except.ok.inj hmap, h.changes rfl⟩

theorem Attempted.Planned.tx_eq {o : Attempted σ config name requests task t}
    {plan : Except Stop (Namespace.Effect α)} (h : o.Planned plan) {c : Context}
    (hc : o.locked = c.endLockPhase) : o.finish.tx = c.tx := by
  rw [h.edits.tx, hc]
  rfl

-- Locks on a malformed path are refused.
theorem lockRows_malformed {set : RequestSet} {mode : NodeMode} {texts : List String}
    {children : Bool} {rest : List LockRequest} {fault : Fault} {c : Context}
    (hlock : config.rowLevelLock) (hset : requests = .ok set) (hvalid : set.validate = .ok ())
    (hlist : set.toList = .nodes mode (.paths texts children) :: rest)
    (hparse : texts.mapM parsePath = .error fault) :
    lockRows config name requests c = .done (.error fault, c) := by
  rw [lockRows, if_pos hlock, hset]
  change (Action.acquire set >>= _ : Action Resolved) c = _
  rw [Action.acquire, hvalid, hlist]
  simp only [List.foldlM_cons, acquireOne, lockPaths, hparse]
  rfl

-- The paths of an attempt that has taken its locks are well formed.
theorem Attempted.components (o : Attempted σ config name requests task t) {set : RequestSet}
    {mode : NodeMode} {texts : List String} {children : Bool} {rest : List LockRequest}
    (hlock : config.rowLevelLock) (hset : requests = .ok set) (hvalid : set.validate = .ok ())
    (hlist : set.toList = .nodes mode (.paths texts children) :: rest) {text : String}
    (htext : text ∈ texts) : ∃ names, Path.components text = .ok names := by
  cases hparse : texts.mapM parsePath
  case ok parsed =>
    obtain ⟨hcomponents, htexts⟩ := mem_of_mapM_parsePath hparse
    obtain ⟨names, hmem⟩ := htexts text htext
    exact ⟨names, (hcomponents _ hmem).2⟩
  case error fault =>
    have hlocks := o.locks
    rw [lockRows_malformed hlock hset hvalid hlist hparse] at hlocks
    cases hlocks.1

end UnitOfWork

theorem Secured.resolve_yields {σ : Timeline} {t u : Nat} {tx : TxId} {mode : NodeMode}
    {parsed : List (String × Position)} {resolved : Resolved} {c : Context} {locked : LockedAt}
    {done : List Position} {path : String} {names : Position}
    (h : Secured σ t tx mode parsed resolved c u locked done) (hmem : (path, names) ∈ parsed)
    (hparsed : ∀ p ∈ parsed, Path.components p.1 = .ok p.2) {c' : Context} :
    YieldsTo none (Namespace.resolve resolved path) c' (.ok (.along locked names)) c' := by
  rw [YieldsTo, Namespace.resolve_yields h.survey.prefixClosed (hparsed _ hmem)
    (h.chainOf?_eq hmem hparsed)]
  exact .done _

theorem Context.LookedUp.fitting {σ : Timeline} {t u : Nat} {c : Context} {kind : LockKind}
    {finder : Finder} {found : Option Row} (h : LookedUp σ t u c kind finder found) :
    Fitting finder found :=
  have ⟨_, _, _, hfound, _⟩ := h.seen
  hfound ▸ fitting_lookup

theorem Context.LookedUp.offers {σ : Timeline} {t u : Nat} {c : Context} {kind : LockKind}
    {finder : Finder} {found : Option Row} (h : LookedUp σ t u c kind finder found) :
    c.endLockPhase.Offers none finder found :=
  .known ⟨h.answers.single, h.answers.row⟩

-- The entries and blocks that the context knows of.
def Context.knownChildren (c : Context) (dir : NodeId) : List Node :=
  ((c.knownList? (.children dir)).getD []).filterMap Row.node?

def Context.knownBlocks (c : Context) (file : NodeId) : List Block :=
  ((c.knownList? (.blocksOf file)).getD []).filterMap Row.block?

theorem Context.Listed.children {σ : Timeline} {t u : Nat} {c : Context} {kind : LockKind}
    {n : Node} {found : List Row} (h : Listed σ t u c kind (.children n.id) n found) :
    ∃ rows, c.endLockPhase.OffersList none (.children n.id) rows ∧
      c.knownChildren n.id = rows.filterMap Row.node? := by
  refine ⟨found, .known h.known, ?_⟩
  rw [knownChildren, h.known, Option.getD_some]

theorem Context.Listed.blocks {σ : Timeline} {t u : Nat} {c : Context} {kind : LockKind}
    {n : Node} {found : List Row} (h : Listed σ t u c kind (.blocksOf n.id) n found) :
    ∃ rows, c.endLockPhase.OffersList none (.blocksOf n.id) rows ∧
      c.knownBlocks n.id = rows.filterMap Row.block? := by
  refine ⟨found, .known h.known, ?_⟩
  rw [knownBlocks, h.known, Option.getD_some]

theorem Context.Tracks.keyed {σ : Timeline} {t₀ t u : Nat} {c : Context} (h : Tracks σ t₀ t u c) :
    c.endLockPhase.Keyed :=
  fun _ _ hrow => (h.row hrow).1

namespace Namespace

open UnitOfWork

variable {σ : Timeline} {config : TransactionConfig} {name path holder : String} {t : Nat}
  (hlock : config.rowLevelLock)

include hlock

theorem MakeDirectory.attempted (o : Attempted σ config name (requests path) (task path) t) :
    ∃ names c locked done counter, Path.components path = .ok names ∧ o.locked = c.endLockPhase ∧
      Gathered σ o.lockedFrom o.tx .writeOnParent [(path, names)] o.resolved c o.lockedAt locked
        done [(.write, .register .nodeIdCounter)] ∧
      LookedUp σ o.lockedFrom o.lockedAt c .write (.register .nodeIdCounter) counter ∧
      o.Planned (plan path (.along locked names) (valueOf counter)) := by
  have ⟨names, hnames⟩ := o.components hlock rfl rfl rfl (List.mem_singleton.mpr rfl)
  have ⟨_, hok, c, hc, locked, done, h⟩ := MakeDirectory.lockRows_gives hlock hnames _ _ o.locks
  cases hok
  have ⟨_, _, counter, hcounter, _⟩ := h.looked (List.mem_singleton.mpr rfl)
  refine ⟨names, c, locked, done, counter, hnames, hc, h, hcounter, o.planned ?_⟩
  rw [hc]
  exact follows (h.resolve_yields (List.mem_singleton.mpr rfl) (by simp [hnames])) (.refl _)
    h.grows.changes h.survey.tracks.keyed hcounter.offers hcounter.fitting

theorem CreateFile.attempted
    (o : Attempted σ config name (requests path holder) (task path holder) t) :
    ∃ names c locked done counter lease, Path.components path = .ok names ∧
      o.locked = c.endLockPhase ∧
      Gathered σ o.lockedFrom o.tx .writeOnParent [(path, names)] o.resolved c o.lockedAt locked
        done [(.write, .register .nodeIdCounter), (.write, .lease holder)] ∧
      LookedUp σ o.lockedFrom o.lockedAt c .write (.register .nodeIdCounter) counter ∧
      LookedUp σ o.lockedFrom o.lockedAt c .write (.lease holder) lease ∧
      o.Planned (plan path holder (.along locked names) (valueOf counter)
        (lease.bind Row.lease?)) := by
  have ⟨names, hnames⟩ := o.components hlock rfl rfl rfl (List.mem_singleton.mpr rfl)
  have ⟨_, hok, c, hc, locked, done, h⟩ := CreateFile.lockRows_gives hlock hnames _ _ o.locks
  cases hok
  have ⟨_, _, counter, hcounter, _⟩ := h.looked List.mem_cons_self
  have ⟨_, _, lease, hlease, _⟩ := h.looked (List.mem_cons_of_mem _ List.mem_cons_self)
  refine ⟨names, c, locked, done, counter, lease, hnames, hc, h, hcounter, hlease, o.planned ?_⟩
  rw [hc]
  exact follows (h.resolve_yields (List.mem_singleton.mpr rfl) (by simp [hnames])) (.refl _)
    h.grows.changes h.survey.tracks.keyed hcounter.offers hcounter.fitting hlease.offers
    hlease.fitting

theorem AddBlock.attempted
    (o : Attempted σ config name (requests path holder) (task path holder) t) :
    ∃ names c locked done lease block stamp, Path.components path = .ok names ∧
      o.locked = c.endLockPhase ∧
      Gathered σ o.lockedFrom o.tx .write [(path, names)] o.resolved c o.lockedAt locked done
        [(.write, .register .blockIdCounter), (.write, .register .generationStamp),
          (.read, .lease holder)] ∧
      LookedUp σ o.lockedFrom o.lockedAt c .read (.lease holder) lease ∧
      AfterAll σ o.lockedFrom o.lockedAt locked (.lease holder) lease ∧
      LookedUp σ o.lockedFrom o.lockedAt c .write (.register .blockIdCounter) block ∧
      LookedUp σ o.lockedFrom o.lockedAt c .write (.register .generationStamp) stamp ∧
      o.Planned (plan path holder (.along locked names) (lease.bind Row.lease?) (valueOf block)
        (valueOf stamp)) := by
  have ⟨names, hnames⟩ := o.components hlock rfl rfl rfl (List.mem_singleton.mpr rfl)
  have ⟨_, hok, c, hc, locked, done, h⟩ := AddBlock.lockRows_gives hlock hnames _ _ o.locks
  cases hok
  have ⟨_, _, block, hblock, _⟩ := h.looked List.mem_cons_self
  have ⟨_, _, stamp, hstamp, _⟩ := h.looked (List.mem_cons_of_mem _ List.mem_cons_self)
  have ⟨_, _, lease, hlease, hafter⟩ :=
    h.looked (List.mem_cons_of_mem _ (List.mem_cons_of_mem _ List.mem_cons_self))
  refine ⟨names, c, locked, done, lease, block, stamp, hnames, hc, h, hlease, hafter, hblock,
    hstamp, o.planned ?_⟩
  rw [hc]
  exact follows (h.resolve_yields (List.mem_singleton.mpr rfl) (by simp [hnames])) (.refl _)
    h.grows.changes h.survey.tracks.keyed hlease.offers hlease.fitting hblock.offers hblock.fitting
    hstamp.offers hstamp.fitting

theorem fileInfo_attempted (o : Attempted σ config name
      (RequestSet.ofRequests [.nodes .read (.paths [path] false)])
      (fun resolved => do return (← resolve resolved path).target) t) :
    ∃ names c locked done, Path.components path = .ok names ∧ o.locked = c.endLockPhase ∧
      Gathered σ o.lockedFrom o.tx .read [(path, names)] o.resolved c o.lockedAt locked done [] ∧
      o.Planned (.ok ⟨locked names, []⟩) := by
  have ⟨names, hnames⟩ := o.components hlock rfl rfl rfl (List.mem_singleton.mpr rfl)
  have ⟨_, hok, c, hc, locked, done, h⟩ := fileInfo_lockRows_gives hlock hnames _ _ o.locks
  cases hok
  refine ⟨names, c, locked, done, hnames, hc, h, o.planned ?_⟩
  rw [hc]
  exact fileInfo_follows (h.resolve_yields (List.mem_singleton.mpr rfl) (by simp [hnames]))
    (.refl _) h.grows.changes

theorem Rename.attempted {source destination : String}
    (o : Attempted σ config name (requests source destination) (task source destination) t) :
    ∃ start goal c locked done, Path.components source = .ok start ∧
      Path.components destination = .ok goal ∧ o.locked = c.endLockPhase ∧
      Gathered σ o.lockedFrom o.tx .writeOnParent [(source, start), (destination, goal)] o.resolved
        c o.lockedAt locked done [] ∧
      o.Planned (plan source destination start goal (.along locked start) (.along locked goal)) := by
  have ⟨start, hstart⟩ := o.components hlock rfl rfl rfl List.mem_cons_self
  have ⟨goal, hgoal⟩ := o.components hlock rfl rfl rfl (List.mem_cons_of_mem _ List.mem_cons_self)
  have ⟨_, hok, c, hc, locked, done, h⟩ := Rename.lockRows_gives hlock hstart hgoal _ _ o.locks
  cases hok
  refine ⟨start, goal, c, locked, done, hstart, hgoal, hc, h, o.planned ?_⟩
  rw [hc]
  exact follows hstart hgoal (h.resolve_yields List.mem_cons_self (by simp [hstart, hgoal]))
    (.refl _) h.grows.changes
    (h.resolve_yields (List.mem_cons_of_mem _ List.mem_cons_self) (by simp [hstart, hgoal]))
    (.refl _) h.grows.changes

theorem ListDirectory.attempted (o : Attempted σ config name (requests path) (task path) t) :
    ∃ names c locked done, Path.components path = .ok names ∧ o.locked = c.endLockPhase ∧
      Secured σ o.lockedFrom o.tx .read [(path, names)] o.resolved c o.lockedAt locked done ∧
      (∀ n, locked names = some n → Listing σ o.lockedFrom o.lockedAt c n) ∧
      o.Planned (plan path (.along locked names) c.knownChildren) := by
  have ⟨names, hnames⟩ := o.components hlock rfl rfl rfl (List.mem_singleton.mpr rfl)
  have ⟨_, hok, c, hc, locked, done, h, hentries⟩ :=
    ListDirectory.lockRows_gives hlock hnames _ _ o.locks
  cases hok
  refine ⟨names, c, locked, done, hnames, hc, h, hentries, o.planned ?_⟩
  rw [hc]
  refine follows (h.resolve_yields (List.mem_singleton.mpr rfl) (by simp [hnames]))
    (.refl c.endLockPhase) h.grows.changes fun n hn hdir => ?_
  have ⟨_, found, hlisted⟩ := (hentries n hn).children hdir
  exact hlisted.children

theorem Delete.attempted (o : Attempted σ config name (requests path) (task path) t) :
    ∃ names c locked done, Path.components path = .ok names ∧ o.locked = c.endLockPhase ∧
      Secured σ o.lockedFrom o.tx .writeOnParent [(path, names)] o.resolved c o.lockedAt locked
        done ∧
      (∀ n, locked names = some n → Contents σ o.lockedFrom o.lockedAt c n) ∧
      o.Planned (lockedPlan path (.along locked names) c.knownChildren c.knownBlocks) := by
  have ⟨names, hnames⟩ := o.components hlock rfl rfl rfl (List.mem_singleton.mpr rfl)
  have ⟨_, hok, c, hc, locked, done, h, hcontents⟩ :=
    Delete.lockRows_gives hlock hnames _ _ o.locks
  cases hok
  refine ⟨names, c, locked, done, hnames, hc, h, hcontents, o.planned ?_⟩
  rw [hc]
  refine follows_locked (h.resolve_yields (List.mem_singleton.mpr rfl) (by simp [hnames]))
    (.refl c.endLockPhase) h.grows.changes rfl (fun n hn hdir => ?_) (fun n hn hfile => ?_) fun n hn => ?_
  · have ⟨_, found, hlisted⟩ := (hcontents n hn).children hdir
    exact hlisted.children
  · have ⟨found, hlisted⟩ := (hcontents n hn).blocks hfile
    exact hlisted.blocks
  · exact (hcontents n hn).unlisted

end Namespace

end NamespaceService
