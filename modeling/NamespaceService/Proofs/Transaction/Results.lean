import NamespaceService.Proofs.Transaction.Solo

namespace NamespaceService

open Program

namespace Context

variable {c : Context} {tx : TxId} {kind : LockKind} {finder : Finder} {row : Row} {key : Key}

def under (c : Context) (tx : TxId) : Context :=
  { c with tx }

theorem foldl_under {α : Type} {f : Context → α → Context} {l : List α}
    (hf : ∀ c a, f (under c tx) a = (f c a).under tx) :
    l.foldl f (c.under tx) = (l.foldl f c).under tx := by
  induction l generalizing c
  case nil => rfl
  case cons a l ih => exact (congrArg (l.foldl f) (hf c a)).trans ih

theorem learnLocked_under {found : Option Row} :
    (c.under tx).learnLocked kind finder found = (c.learnLocked kind finder found).under tx := by
  cases found
  case some => rfl
  case none =>
    rw [learnLocked, learnLocked]
    split <;> rfl

theorem learnLockedList_under {found : List Row} :
    (c.under tx).learnLockedList kind finder found = (c.learnLockedList kind finder found).under tx :=
  congrArg (setList · finder (found.map Row.key)) (foldl_under fun _ _ => rfl)

theorem learn_under {found : Option Row} :
    (c.under tx).learn finder found = (c.learn finder found).under tx := by
  cases found <;> rfl

theorem learnList_under {found : List Row} :
    (c.under tx).learnList finder found = (c.learnList finder found).under tx :=
  congrArg (setList · finder (found.map Row.key)) (foldl_under fun _ _ => rfl)

theorem upsert_under : (c.under tx).upsert row = (c.upsert row).under tx := by
  have hrows : (c.under tx).rows = c.rows := rfl
  rw [upsert, upsert, hrows]
  cases c.rows row.key <;> rfl

theorem remove_under : (c.under tx).remove key = (c.remove key).under tx := by
  have hrows : (c.under tx).rows = c.rows := rfl
  rw [remove, remove, hrows]
  cases c.rows key <;> rfl

end Context

-- The first fault that is queued for lookups is met on the way.
def Store.Meets (s : Store) (fault : Fault) (s' : Store) : Prop :=
  ∃ rest, s.faults .find = fault :: rest ∧ s'.faults = (s.dropFault .find).faults

theorem Store.Meets.congr {s t s' t' : Store} {fault : Fault} (h : s.Meets fault s')
    (hs : t.faults = s.faults) (hs' : t'.faults = s'.faults) : t.Meets fault t' := by
  obtain ⟨rest, hrest, hdrop⟩ := h
  refine ⟨rest, by rw [hs, hrest], ?_⟩
  rw [hs', hdrop, dropFault, dropFault, hs]

namespace Stage

variable {ε α β : Type} [FaultCarrier ε] {rows : Rows} {c c' c'' : Context} {m : Stage ε α}
  {f : α → Stage ε β} {a : α} {e : ε} {r : Except ε α} {r' : Except ε β}

-- The number of the transaction makes no difference. A fault of the store ends the work with it.
def Denotes (m : Stage ε α) (rows : Rows) (c : Context) (r : Except ε α) (c' : Context) : Prop :=
  ∀ tx s x s', s.rows = rows → (m (c.under tx)).RunsAlone s x s' →
    x = (r, c'.under tx) ∧ s'.faults = s.faults ∨
      ∃ fault, s.Meets fault s' ∧ x.1 = .error (FaultCarrier.ofFault fault)

namespace Denotes

theorem of_done (h : ∀ tx, m (c.under tx) = .done (r, c'.under tx)) : Denotes m rows c r c' := by
  intro tx s x s' _ hrun
  rw [h] at hrun
  obtain ⟨rfl, rfl⟩ := hrun
  exact .inl ⟨rfl, rfl⟩

theorem bind_ok (hm : Denotes m rows c (.ok a) c') (hreads : Reads m)
    (hf : Denotes (f a) rows c' r' c'') : Denotes (m >>= f) rows c r' c'' := by
  intro tx s x s' hrows h
  rw [bind_apply] at h
  obtain ⟨x₁, s₁, h₁, h₂⟩ := h.of_bind
  have hrows₁ : s₁.rows = rows := ((hreads (c.under tx)).same h₁).1.trans hrows
  obtain ⟨rfl, hfaults⟩ | ⟨fault, hmeets, herror⟩ := hm tx s x₁ s₁ hrows h₁
  · obtain ⟨rfl, hfaults'⟩ | ⟨fault, hmeets, herror⟩ := hf tx s₁ x s' hrows₁ h₂
    · exact .inl ⟨rfl, hfaults'.trans hfaults⟩
    · exact .inr ⟨fault, hmeets.congr hfaults.symm rfl, herror⟩
  · obtain ⟨r₁, c₁⟩ := x₁
    cases (herror : r₁ = _)
    obtain ⟨rfl, rfl⟩ := h₂
    exact .inr ⟨fault, hmeets, rfl⟩

theorem bind_error (hm : Denotes m rows c (.error e) c') : Denotes (m >>= f) rows c (.error e) c' := by
  intro tx s x s' hrows h
  rw [bind_apply] at h
  obtain ⟨x₁, s₁, h₁, h₂⟩ := h.of_bind
  obtain ⟨rfl, hfaults⟩ | ⟨fault, hmeets, herror⟩ := hm tx s x₁ s₁ hrows h₁
  · obtain ⟨rfl, rfl⟩ := h₂
    exact .inl ⟨rfl, hfaults⟩
  · obtain ⟨r₁, c₁⟩ := x₁
    cases (herror : r₁ = _)
    obtain ⟨rfl, rfl⟩ := h₂
    exact .inr ⟨fault, hmeets, rfl⟩

theorem lift {action : Action α} {r : Except Fault α} (h : Denotes action rows c r c') :
    Denotes (liftM action : Task α) rows c (r.mapError (.failed ∘ .store)) c' := by
  intro tx s x s' hrows hrun
  obtain ⟨x₁, s₁, h₁, h₂⟩ := hrun.of_bind
  obtain ⟨rfl, hfaults⟩ | ⟨fault, hmeets, herror⟩ := h tx s x₁ s₁ hrows h₁
  · cases r
    all_goals
      obtain ⟨rfl, rfl⟩ := h₂
      exact .inl ⟨rfl, hfaults⟩
  · obtain ⟨r₁, c₁⟩ := x₁
    cases (herror : r₁ = _)
    obtain ⟨rfl, rfl⟩ := h₂
    exact .inr ⟨fault, hmeets, rfl⟩

end Denotes

-- A lookup is answered from the context or by the rows.
theorem exists_denotes_lookup {m : Action α} {finder : Finder} {known : Context → Option α}
    {learn : Context → α → Context} {found : α} (answer : TxId → Store → Except Fault α × Store)
    (halone : ∀ {c c' s r s'}, (m c).RunsAlone s (r, c') s' →
      Action.ReadAlone finder known (answer c.tx) learn c s r c' s')
    (hknown : ∀ c tx, known (Context.under c tx) = known c)
    (hlearn : ∀ c tx, learn (Context.under c tx) found = (learn c found).under tx)
    (hanswer : ∀ s tx, s.rows = rows →
      (∃ s', answer tx s = (.ok found, s') ∧ s'.faults = s.faults) ∨
        ∃ fault rest, s.faults .find = fault :: rest ∧
          answer tx s = (.error fault, s.dropFault .find)) (c : Context) :
    ∃ r c', Denotes m rows c r c' ∧ ∀ fault, r = .error fault → ¬fault.isTransient := by
  cases hc : known c
  case some a =>
    refine ⟨.ok a, c, fun tx s (r, c') s' _ h => ?_, nofun⟩
    replace hc := (hknown c tx).trans hc
    replace h := halone h
    cases h
    case known h => exact .inl ⟨by rw [Option.some.inj (h.symm.trans hc)], rfl⟩
    case prevented h _ => cases h.symm.trans hc
    case found h _ _ => cases h.symm.trans hc
    case failed h _ _ => cases h.symm.trans hc
  case none =>
    cases hsealed : c.sealed
    case true =>
      refine ⟨.error (.storagePrevented finder.text), c, fun tx s (r, c') s' _ h => ?_, ?_⟩
      case refine_2 =>
        rintro _ ⟨⟩
        exact Bool.false_ne_true
      replace hc := (hknown c tx).trans hc
      replace h := halone h
      cases h
      case known h => cases h.symm.trans hc
      case prevented => exact .inl ⟨rfl, rfl⟩
      case found hs _ => cases hs.symm.trans hsealed
      case failed hs _ => cases hs.symm.trans hsealed
    case false =>
      refine ⟨.ok found, learn c found, fun tx s (r, c') s' hrows h => ?_, nofun⟩
      replace hc := (hknown c tx).trans hc
      have hcall := hanswer s tx hrows
      replace h := halone h
      cases h
      case known h => cases h.symm.trans hc
      case prevented hs => cases hs.symm.trans hsealed
      case found ha =>
        obtain ⟨s₁, heq, hfaults⟩ | ⟨_, _, -, heq⟩ := hcall
        all_goals cases ha.symm.trans heq
        exact .inl ⟨by rw [hlearn], hfaults⟩
      case failed ha =>
        obtain ⟨_, heq, -⟩ | ⟨_, rest, hqueued, heq⟩ := hcall
        all_goals cases ha.symm.trans heq
        exact .inr ⟨_, ⟨rest, hqueued, rfl⟩, rfl⟩

theorem exists_answer_find (s : Store) (tx : TxId) (kind : LockKind) (finder : Finder)
    (hrows : s.rows = rows) :
    (∃ s', s.find tx kind finder = (.ok (rows.lookup finder), s') ∧ s'.faults = s.faults) ∨
      ∃ fault rest, s.faults .find = fault :: rest ∧
        s.find tx kind finder = (.error fault, s.dropFault .find) := by
  subst hrows
  obtain ⟨-, heq⟩ | hfault := s.find_cases tx kind finder
  · exact .inl ⟨_, heq, Store.asked_faults⟩
  · exact .inr hfault

theorem exists_answer_findList (s : Store) (tx : TxId) (kind : LockKind) (finder : Finder)
    (hrows : s.rows = rows) :
    (∃ s', s.findList tx kind finder = (.ok (rows.lookupList finder), s') ∧ s'.faults = s.faults) ∨
      ∃ fault rest, s.faults .find = fault :: rest ∧
        s.findList tx kind finder = (.error fault, s.dropFault .find) := by
  subst hrows
  obtain ⟨-, heq⟩ | hfault := s.findList_cases tx kind finder
  · exact .inl ⟨_, heq, Store.listed_faults⟩
  · exact .inr hfault

-- And if it fails by itself, the failure lasts.
theorem Straight.exists_denotes (h : Straight m) (rows : Rows) (c : Context) :
    ∃ r c', Denotes m rows c r c' ∧ ∀ e, r = .error e → FaultCarrier.Lasts e := by
  induction h generalizing c
  case pure a => exact ⟨.ok a, c, .of_done fun _ => rfl, nofun⟩
  case throw e he =>
    refine ⟨.error e, c, .of_done fun _ => rfl, ?_⟩
    rintro _ ⟨⟩
    exact he
  case bind hm _ ihm ihf =>
    obtain ⟨r, c', hdenotes, hlasts⟩ := ihm c
    cases r
    case ok a =>
      obtain ⟨r', c'', hdenotes', hlasts'⟩ := ihf a c'
      exact ⟨r', c'', hdenotes.bind_ok hm.reads hdenotes', hlasts'⟩
    case error e =>
      refine ⟨.error e, c', hdenotes.bind_error, ?_⟩
      rintro _ ⟨⟩
      exact hlasts e rfl
  case get f _ htx ih =>
    obtain ⟨r, c', hdenotes, hlasts⟩ := ih c c
    refine ⟨r, c', fun tx s x s' hrows h => ?_, hlasts⟩
    replace h : (f (c.under tx) (c.under tx)).RunsAlone s x s' := h
    rw [Context.under, htx] at h
    exact hdenotes tx s x s' hrows h
  case log =>
    refine ⟨.ok (), c, fun tx s x s' _ h => ?_, nofun⟩
    obtain ⟨rfl, rfl⟩ := RunsAlone.after_log h
    exact .inl ⟨rfl, rfl⟩
  case lockFind kind finder =>
    exact exists_denotes_lookup (fun tx s => s.find tx kind finder) Action.lockFind_alone
      (fun _ _ => rfl) (fun _ _ => Context.learnLocked_under)
      (fun s tx => exists_answer_find s tx kind finder) c
  case lockList kind finder =>
    exact exists_denotes_lookup (fun tx s => s.findList tx kind finder) Action.lockList_alone
      (fun _ _ => rfl) (fun _ _ => Context.learnLockedList_under)
      (fun s tx => exists_answer_findList s tx kind finder) c
  case probe finder =>
    exact exists_denotes_lookup
      (fun tx s => (.ok (s.rows.lookup finder), s.record (.probe tx finder)))
      Action.probe_alone (fun _ _ => rfl) (fun _ _ => rfl)
      (fun s tx hrows => .inl ⟨s.record (.probe tx finder), by rw [hrows], rfl⟩) c
  case find finder =>
    exact exists_denotes_lookup (fun tx s => s.find tx .readCommitted finder)
      Action.find_alone (fun _ _ => rfl) (fun _ _ => Context.learn_under)
      (fun s tx => exists_answer_find s tx .readCommitted finder) c
  case findList finder =>
    exact exists_denotes_lookup (fun tx s => s.findList tx .readCommitted finder)
      Action.findList_alone (fun _ _ => rfl) (fun _ _ => Context.learnList_under)
      (fun s tx => exists_answer_findList s tx .readCommitted finder) c
  case upsert row =>
    refine ⟨.ok (), c.upsert row, .of_done fun tx => ?_, nofun⟩
    rw [← Context.upsert_under]
    rfl
  case remove key =>
    refine ⟨.ok (), c.remove key, .of_done fun tx => ?_, nofun⟩
    rw [← Context.remove_under]
    rfl
  case endLockPhase => exact ⟨.ok (), c.endLockPhase, .of_done fun _ => rfl, nofun⟩
  case lift ih =>
    obtain ⟨r, c', hdenotes, hlasts⟩ := ih c
    exact ⟨_, c', hdenotes.lift, by cases r <;> rintro _ ⟨⟩; exact hlasts _ rfl⟩

end Stage

end NamespaceService
