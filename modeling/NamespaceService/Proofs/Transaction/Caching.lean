import Mathlib.Data.List.Forall2
import NamespaceService.Proofs.Store.Exclusion
import NamespaceService.Proofs.Transaction.Reading
import NamespaceService.Proofs.Transaction.Reflection
import NamespaceService.Proofs.Transaction.Results
import NamespaceService.Session.Steps

namespace NamespaceService

open Program

variable {α β : Type} {rows : Rows} {m : Action α} {f : α → Action β} {c c' : Context}
  {s s' s'' : Store} {result r : Except Fault α} {a found : α} {kind : LockKind} {finder : Finder}
  {tx : TxId}

namespace Store

-- The rows stay. What was going to be given is given or, if faults are queued for lookups, one of
-- them.
structure Gives (s : Store) (result r : Except Fault α) (s' : Store) : Prop where
  rows : s'.rows = s.rows
  given : r = result ∧ s'.faults = s.faults ∨ ∃ fault, s.Meets fault s' ∧ r = .error fault

theorem Gives.refl : s.Gives result result s :=
  ⟨rfl, .inl ⟨rfl, rfl⟩⟩

theorem Gives.result_or (h : s.Gives result r s') :
    r = result ∨ ∃ fault ∈ s.faults .find, r = .error fault := by
  obtain ⟨hr, -⟩ | ⟨fault, ⟨rest, hqueued, -⟩, hr⟩ := h.given
  · exact .inl hr
  · exact .inr ⟨fault, hqueued ▸ List.mem_cons_self, hr⟩

theorem Gives.faults_subset (h : s.Gives result r s') : s'.faults .find ⊆ s.faults .find := by
  obtain ⟨-, hfaults⟩ | ⟨_, ⟨_, -, hfaults⟩, -⟩ := h.given
  · exact hfaults ▸ List.Subset.refl _
  · rw [hfaults]
    exact (List.tail_sublist _).subset

theorem Gives.trans {result : Except Fault β} {r : Except Fault β} (h : s'.Gives result r s'')
    (hrows : s'.rows = s.rows) (hfaults : s'.faults = s.faults) : s.Gives result r s'' where
  rows := h.rows.trans hrows
  given := by
    obtain ⟨rfl, hsame⟩ | ⟨fault, hmeets, hr⟩ := h.given
    · exact .inl ⟨rfl, hsame.trans hfaults⟩
    · exact .inr ⟨fault, hmeets.congr hfaults.symm rfl, hr⟩

theorem find_gives : s.Gives (.ok (s.rows.lookup finder)) (s.find tx kind finder).1
    (s.find tx kind finder).2 := by
  obtain ⟨-, heq⟩ | ⟨fault, rest, hqueued, heq⟩ := s.find_cases tx kind finder
  all_goals rw [heq]
  · exact ⟨asked_rows, .inl ⟨rfl, asked_faults⟩⟩
  · exact ⟨rfl, .inr ⟨fault, ⟨rest, hqueued, rfl⟩, rfl⟩⟩

theorem findList_gives : s.Gives (.ok (s.rows.lookupList finder)) (s.findList tx kind finder).1
    (s.findList tx kind finder).2 := by
  obtain ⟨-, heq⟩ | ⟨fault, rest, hqueued, heq⟩ := s.findList_cases tx kind finder
  all_goals rw [heq]
  · exact ⟨listed_rows, .inl ⟨rfl, listed_faults⟩⟩
  · exact ⟨rfl, .inr ⟨fault, ⟨rest, hqueued, rfl⟩, rfl⟩⟩

end Store

namespace Action

-- On every context that is faithful to the rows, the work comes to the one result.
structure Settles (rows : Rows) (m : Action α) (result : Except Fault α) : Prop where
  run {c c' : Context} {s s' : Store} {r : Except Fault α} : c.Faithful rows → s.rows = rows →
    RunsAlone (m c) s (r, c') s' → c'.Faithful rows ∧ s.Gives result r s'

-- A lookup gives what the rows give, if what is known is true and stays so.
theorem ReadAlone.settles {known : Context → Option α} {answer : Store → Except Fault α × Store}
    {learn : Context → α → Context} (h : ReadAlone finder known answer learn c s r c' s')
    (hc : c.Faithful rows) (hanswer : s.Gives (.ok found) (answer s).1 (answer s).2)
    (hknown : ∀ {a}, known c = some a → a = found) (hlearn : (learn c found).Faithful rows) :
    c'.Faithful rows ∧ s.Gives (.ok found) r s' := by
  cases h
  case known ha => exact ⟨hc, hknown ha ▸ .refl⟩
  case prevented hsealed => cases hc.unsealed.symm.trans hsealed
  case found ha =>
    rw [ha] at hanswer
    obtain ⟨hok, -⟩ | ⟨_, -, herror⟩ := hanswer.given
    · cases hok
      exact ⟨hlearn, hanswer⟩
    · cases herror
  case failed ha =>
    rw [ha] at hanswer
    exact ⟨hc, hanswer⟩

namespace Settles

theorem of_done (h : ∀ c, m c = .done (result, c)) : Settles rows m result where
  run {c c' s s' r} hc hs hrun := by
    rw [h] at hrun
    obtain ⟨heq, rfl⟩ := hrun
    cases heq
    exact ⟨hc, .refl⟩

theorem log {level : Level} {message : String} : Settles rows (log level message) (.ok ()) where
  run {c c' s s' r} hc hs hrun := by
    obtain ⟨heq, rfl⟩ := RunsAlone.after_log hrun
    cases heq
    exact ⟨hc, .refl⟩

theorem bind_ok {result : Except Fault β} (hm : Settles rows m (.ok a))
    (hf : Settles rows (f a) result) : Settles rows (m >>= f) result where
  run {c c' s s' r} hc hs hrun := by
    rw [Stage.bind_apply] at hrun
    obtain ⟨⟨r₁, c₁⟩, s₁, hfirst, hrest⟩ := hrun.of_bind
    obtain ⟨hc₁, hgives⟩ := hm.run hc hs hfirst
    obtain ⟨rfl, hfaults⟩ | ⟨fault, hmeets, rfl⟩ := hgives.given
    · obtain ⟨hc', hgives'⟩ := hf.run hc₁ (hgives.rows.trans hs) hrest
      exact ⟨hc', hgives'.trans hgives.rows hfaults⟩
    · obtain ⟨heq, rfl⟩ := hrest
      cases heq
      exact ⟨hc₁, hgives.rows, .inr ⟨fault, hmeets, rfl⟩⟩

theorem bind_error {fault : Fault} (hm : Settles rows m (.error fault)) :
    Settles rows (m >>= f) (.error fault) where
  run {c c' s s' r} hc hs hrun := by
    rw [Stage.bind_apply] at hrun
    obtain ⟨⟨r₁, c₁⟩, s₁, hfirst, hrest⟩ := hrun.of_bind
    obtain ⟨hc₁, hgives⟩ := hm.run hc hs hfirst
    obtain ⟨rfl, hfaults⟩ | ⟨fault, hmeets, rfl⟩ := hgives.given
    all_goals
      obtain ⟨heq, rfl⟩ := hrest
      cases heq
    · exact ⟨hc₁, hgives.rows, .inl ⟨rfl, hfaults⟩⟩
    · exact ⟨hc₁, hgives.rows, .inr ⟨fault, hmeets, rfl⟩⟩

theorem get {f : Context → Action β} {result : Except Fault β} (h : ∀ c, Settles rows (f c) result) :
    Settles rows (get >>= f) result where
  run hc hs hrun := (h _).run hc hs hrun

theorem lockFind (hnames : NamesApart rows.find?) :
    Settles rows (lockFind kind finder) (.ok (rows.lookup finder)) where
  run {c c' s s' r} hc hs hrun := by
    subst hs
    exact (lockFind_alone hrun).settles hc Store.find_gives hc.lockedAnswer? (hc.learnLocked hnames)

theorem lockList (hnames : NamesApart rows.find?) :
    Settles rows (lockList kind finder) (.ok (rows.lookupList finder)) where
  run {c c' s s' r} hc hs hrun := by
    subst hs
    exact (lockList_alone hrun).settles hc Store.findList_gives hc.lockedList?
      (hc.learnLockedList hnames)

theorem probe : Settles rows (probe finder) (.ok (rows.lookup finder)) where
  run {c c' s s' r} hc hs hrun := by
    subst hs
    exact (probe_alone hrun).settles hc ⟨rfl, .inl ⟨rfl, rfl⟩⟩ hc.knownSingle? hc

theorem find (hnames : NamesApart rows.find?) :
    Settles rows (find finder) (.ok (rows.lookup finder)) where
  run {c c' s s' r} hc hs hrun := by
    subst hs
    exact (find_alone hrun).settles hc Store.find_gives hc.knownAnswer? (hc.learn hnames)

theorem findList (hnames : NamesApart rows.find?) :
    Settles rows (findList finder) (.ok (rows.lookupList finder)) where
  run {c c' s s' r} hc hs hrun := by
    subst hs
    exact (findList_alone hrun).settles hc Store.findList_gives hc.knownList? (hc.learnList hnames)

theorem map {give : α → β} (hm : Settles rows m (.ok a)) :
    Settles rows (give <$> m) (.ok (give a)) := by
  rw [map_eq_pure_bind]
  exact hm.bind_ok (.of_done fun _ => rfl)

end Settles

end Action

-- How strongly rows are locked makes no difference to what is found.
theorem Reading.exists_settles (h : Reading m) (hnames : NamesApart rows.find?) :
    ∃ result, m.Settles rows result := by
  induction h
  case pure a => exact ⟨.ok a, .of_done fun _ => rfl⟩
  case throw fault _ => exact ⟨.error fault, .of_done fun _ => rfl⟩
  case bind ihm ihf =>
    obtain ⟨result, hm⟩ := ihm
    cases result
    case ok a =>
      obtain ⟨result, hf⟩ := ihf a
      exact ⟨result, hm.bind_ok hf⟩
    case error fault => exact ⟨.error fault, hm.bind_error⟩
  case log => exact ⟨.ok (), .log⟩
  case lockFind => exact ⟨_, .lockFind hnames⟩
  case lockList => exact ⟨_, .lockList hnames⟩
  case probe => exact ⟨_, .probe⟩
  case find => exact ⟨_, .find hnames⟩
  case findList => exact ⟨_, .findList hnames⟩
  case lockListAlike key finder f _ ihf =>
    obtain ⟨result, hf⟩ := ihf (rows.lookupList finder)
    exact ⟨result, .get fun _ => .bind_ok (.lockList hnames) hf⟩

namespace Session.ContextStep

variable {steps : List ContextStep} {step : ContextStep}

-- Steps that look rows up and take locks.
def looks : ContextStep → Bool
  | .upsert _ | .remove _ | .endLockPhase | .changes | .commit | .rollback => false
  | _ => true

-- What a lookup gives that is made in the rows.
def direct? (rows : Rows) : ContextStep → Option Reply
  | .lockFind _ finder | .probe finder | .find finder => some (.row (rows.lookup finder))
  | .lockNode _ finder | .findNode finder => some (.node ((rows.lookup finder).bind Row.node?))
  | .lockList _ finder | .findList finder => some (.rows (rows.lookupList finder))
  | _ => none

def runAll : List ContextStep → Context → Program (List (Except Fault Reply) × Context)
  | [], c => return ([], c)
  | step :: steps, c => do
    let (reply, c) ← step.run c
    let (replies, c) ← runAll steps c
    return (reply :: replies, c)

theorem reading (h : step.looks) : Reading step.run := by
  have hmap {α : Type} {m : Action α} {give : α → Reply} (hm : Reading m) : Reading (give <$> m) :=
    map_eq_pure_bind give m ▸ hm.bind fun _ => .pure
  cases step
  case lockFind => exact hmap .lockFind
  case lockNode => exact hmap Action.lockNode_reading
  case lockList => exact hmap .lockList
  case probe => exact hmap .probe
  case find => exact hmap .find
  case findNode => exact hmap Action.findNode_reading
  case findList => exact hmap .findList
  case acquire =>
    exact (Reading.ofExcept fun _ => RequestSet.ofRequests_fails).bind fun _ =>
      Action.acquire_reading.bind fun _ => .pure
  case lockPath => exact hmap Action.lockPath_reading
  case lockPaths => exact Action.lockPaths_reading.bind fun _ => .pure
  case lockChain => exact hmap Action.lockChainFrom_reading
  all_goals cases h

theorem settles_direct {reply : Reply} (hnames : NamesApart rows.find?)
    (h : step.direct? rows = some reply) : step.run.Settles rows (.ok reply) := by
  have hnode {m : Action (Option Row)} {found : Option Row} (hm : m.Settles rows (.ok found)) :
      (m >>= fun found => pure (found.bind Row.node?)).Settles rows (.ok (found.bind Row.node?)) :=
    hm.bind_ok (.of_done fun _ => rfl)
  cases step
  all_goals cases h
  case lockFind => exact .map (.lockFind hnames)
  case lockNode => exact .map (hnode (.lockFind hnames))
  case lockList => exact .map (.lockList hnames)
  case probe => exact .map .probe
  case find => exact .map (.find hnames)
  case findNode => exact .map (hnode (.find hnames))
  case findList => exact .map (.findList hnames)

-- The reply to a lookup is that of the rows, or it is a fault that was queued for lookups.
def Answered (s : Store) (step : ContextStep) (reply : Except Fault Reply) : Prop :=
  ∀ direct, step.direct? s.rows = some direct →
    reply = .ok direct ∨ ∃ fault ∈ s.faults .find, reply = .error fault

theorem Answered.mono {reply : Except Fault Reply} (h : Answered s' step reply)
    (hrows : s'.rows = s.rows) (hfaults : s'.faults .find ⊆ s.faults .find) : Answered s step reply :=
  fun direct hdirect => (h direct (hrows ▸ hdirect)).imp_right
    fun ⟨fault, hfault, hreply⟩ => ⟨fault, hfaults hfault, hreply⟩

theorem run_answered {reply : Except Fault Reply} (hnames : NamesApart s.rows.find?)
    (hlooks : step.looks) (hc : c.Faithful s.rows) (hrun : RunsAlone (step.run c) s (reply, c') s') :
    c'.Faithful s.rows ∧ s'.rows = s.rows ∧ s'.faults .find ⊆ s.faults .find ∧
      Answered s step reply := by
  obtain ⟨result, hsettles⟩ := (reading hlooks).exists_settles hnames
  obtain ⟨hc', hgives⟩ := hsettles.run hc rfl hrun
  refine ⟨hc', hgives.rows, hgives.faults_subset, fun direct hdirect => ?_⟩
  exact ((settles_direct hnames hdirect).run hc rfl hrun).2.result_or

theorem runAll_answered {replies : List (Except Fault Reply)} (hnames : NamesApart s.rows.find?)
    (hlooks : ∀ step ∈ steps, step.looks) (hc : c.Faithful s.rows)
    (hrun : RunsAlone (runAll steps c) s (replies, c') s') :
    c'.Faithful s.rows ∧ s'.rows = s.rows ∧ List.Forall₂ (Answered s) steps replies := by
  induction steps generalizing c s replies
  case nil =>
    obtain ⟨heq, rfl⟩ := hrun
    cases heq
    exact ⟨hc, rfl, .nil⟩
  case cons step steps ih =>
    obtain ⟨hstep, hlater⟩ := List.forall_mem_cons.mp hlooks
    obtain ⟨⟨reply, c₁⟩, s₁, hfirst, hrest⟩ := hrun.of_bind
    obtain ⟨⟨others, c₂⟩, s₂, hothers, heq, rfl⟩ := hrest.of_bind
    cases heq
    obtain ⟨hc₁, hrows, hfaults, hreply⟩ := run_answered hnames hstep hc hfirst
    obtain ⟨hc', hrows', hreplies⟩ := ih (hrows ▸ hnames) hlater (hrows ▸ hc₁) hothers
    exact ⟨hrows ▸ hc', hrows'.trans hrows,
      .cons hreply (hreplies.imp fun _ _ h => h.mono hrows hfaults)⟩

theorem runAll_plain (hlooks : ∀ step ∈ steps, step.looks) :
    (runAll steps c).Only Request.Plain := by
  induction steps generalizing c
  case nil => trivial
  case cons step steps ih =>
    obtain ⟨hstep, hlater⟩ := List.forall_mem_cons.mp hlooks
    exact ((reading hstep).straight.reads.plain c).bind fun _ => (ih hlater).bind fun _ => trivial

end Session.ContextStep

-- Work comes to the result or, if faults are queued for lookups, to one of them.
def Action.ComesTo (m : Action α) (c : Context) (w : World) (result : Except Fault α) : Prop :=
  ∃ r c' w', (m c).run w = some ((r, c'), w') ∧
    (r = result ∨ ∃ fault ∈ w.store.faults .find, r = .error fault)

theorem Action.Settles.comesTo {w : World} (h : m.Settles rows result) (hm : Reading m)
    (hc : c.Faithful rows) (hw : w.store.rows = rows) : m.ComesTo c w result := by
  obtain ⟨⟨r, c'⟩, s', halone⟩ := exists_runsAlone (hm.straight.reads.plain c) w.store
  obtain ⟨w', hrun, -⟩ := halone.run
  exact ⟨r, c', w', hrun, (h.run hc hw halone).2.result_or⟩

namespace Session.ContextStep

variable {steps : List ContextStep}

-- While nobody changes the rows, every lookup on a context gives what it gives in the rows, and
-- taking locks on it comes to what it comes to on a new one.
theorem lookups_direct {w : World} (tx : TxId) (hnames : NamesApart w.store.rows.find?)
    (hlooks : ∀ step ∈ steps, step.looks) : ∃ replies c w',
      (runAll steps (.new tx)).run w = some ((replies, c), w') ∧ w'.store.rows = w.store.rows ∧
        List.Forall₂ (Answered w.store) steps replies ∧
        ∀ requests, ∃ result, ∀ v : World, v.store.rows = w.store.rows →
          (Action.acquire requests).ComesTo c v result ∧
            ∀ tx', (Action.acquire requests).ComesTo (.new tx') v result := by
  obtain ⟨⟨replies, c⟩, s', halone⟩ := exists_runsAlone (runAll_plain hlooks) w.store
  obtain ⟨w', hrun, rfl⟩ := halone.run
  obtain ⟨hc, hrows, hreplies⟩ := runAll_answered hnames hlooks (.new _ tx) halone
  refine ⟨replies, c, w', hrun, hrows, hreplies, fun requests => ?_⟩
  have hreading : Reading (Action.acquire requests) := Action.acquire_reading
  obtain ⟨result, hsettles⟩ := hreading.exists_settles hnames
  exact ⟨result, fun v hv => ⟨hsettles.comesTo hreading hc hv,
    fun tx' => hsettles.comesTo hreading (.new _ tx') hv⟩⟩

-- A file is looked up by its name, by its id and in its directory.
def oneFile : Rows :=
  .ofList [.node .root, .node ⟨⟨1⟩, .root, "a", .directory, []⟩, .node ⟨⟨2⟩, ⟨1⟩, "f", .file, []⟩]

def lookAround : List ContextStep :=
  [.find (.nodeNamed ⟨1⟩ "f"), .lockFind .read (.node ⟨2⟩), .findList (.children ⟨1⟩),
    .lockList .write (.children ⟨1⟩), .probe (.nodeNamed ⟨1⟩ "g"), .find (.node ⟨2⟩)]

theorem lookups_direct_oneFile : NamesApart oneFile.find? ∧ (∀ step ∈ lookAround, step.looks) ∧
    ∃ replies c w', (runAll lookAround (.new 1)).run { store := .ofRows oneFile } =
        some ((replies, c), w') ∧
      List.Forall₂ (Answered (.ofRows oneFile)) lookAround replies ∧
      ∃ result,
        (Action.acquire (.ofList [.nodes .write (.paths ["/a/f"] true)])).ComesTo c w' result ∧
        (Action.acquire (.ofList [.nodes .write (.paths ["/a/f"] true)])).ComesTo (.new 2) w'
          result := by
  have hnames : NamesApart oneFile.find? := by decide +kernel
  have hlooks : ∀ step ∈ lookAround, step.looks := by decide
  obtain ⟨replies, c, w', hrun, hrows, hreplies, hacquire⟩ :=
    lookups_direct (w := { store := .ofRows oneFile }) 1 hnames hlooks
  obtain ⟨result, hresult⟩ := hacquire (.ofList [.nodes .write (.paths ["/a/f"] true)])
  obtain ⟨hused, hnew⟩ := hresult w' hrows
  exact ⟨hnames, hlooks, replies, c, w', hrun, hreplies, result, hused, hnew 2⟩

end Session.ContextStep

end NamespaceService
