import NamespaceService.Proofs.Concurrency.Alone
import NamespaceService.Proofs.Store.Faults
import NamespaceService.Proofs.Transaction.Attempt

namespace NamespaceService

open Program

variable {s s' : Store} {tx : TxId} {kind : LockKind} {finder : Finder}

namespace Program

theorem RunsAlone.call {call : Store.Call} {x : call.Response}
    (h : (Program.call call).RunsAlone s x s') : s.answer call = (x, s') := by
  obtain ⟨_, _, hx, rfl, rfl⟩ := h
  exact hx

-- A program that never waits runs alone as it runs in the world.
theorem RunsAlone.of_run {α : Type} {p : Program α} {w w' : World} {a : α}
    (hp : p.Only Request.Plain) (h : p.run w = some (a, w')) : p.RunsAlone w.store a w'.store := by
  obtain ⟨b, s', halone⟩ := exists_runsAlone hp w.store
  obtain ⟨w'', hrun, rfl⟩ := halone.run
  cases hrun.symm.trans h
  exact halone

theorem lockedFind_alone {r : Except Fault (Option Row)}
    (h : (lockedFind kind finder tx).RunsAlone s r s') : s.find tx kind finder = (r, s') := by
  obtain ⟨x, s₁, hcall, hrest⟩ := h.of_bind
  cases x
  case error fault =>
    obtain ⟨rfl, rfl⟩ := hrest
    exact hcall.call
  case ok found =>
    obtain ⟨rfl, rfl⟩ := RunsAlone.after_log hrest
    exact hcall.call

theorem lockedList_alone {r : Except Fault (List Row)}
    (h : (lockedList kind finder tx).RunsAlone s r s') : s.findList tx kind finder = (r, s') := by
  obtain ⟨x, s₁, hcall, hrest⟩ := h.of_bind
  cases x
  case error fault =>
    obtain ⟨rfl, rfl⟩ := hrest
    exact hcall.call
  case ok found =>
    obtain ⟨rfl, rfl⟩ := RunsAlone.after_log hrest
    exact hcall.call

theorem snapshotFind_alone {r : Except Fault (Option Row)}
    (h : (snapshotFind finder tx).RunsAlone s r s') : s.find tx .readCommitted finder = (r, s') :=
  show s.answer (.find tx .readCommitted finder) = _ from RunsAlone.call h

theorem snapshotList_alone {r : Except Fault (List Row)}
    (h : (snapshotList finder tx).RunsAlone s r s') : s.findList tx .readCommitted finder = (r, s') :=
  show s.answer (.findList tx .readCommitted finder) = _ from RunsAlone.call h

theorem probe_alone {r : Except Fault (Option Row)} (h : (probe finder tx).RunsAlone s r s') :
    r = .ok (s.rows.lookup finder) ∧ s' = s.record (.probe tx finder) := by
  obtain ⟨x, s₁, hcall, rfl, rfl⟩ := h.of_bind
  cases hcall.call
  exact ⟨rfl, rfl⟩

theorem commit_alone {held : Nat} {changes : List Change} {r : Except Fault Unit}
    (h : (Program.commit tx held changes).RunsAlone s r s') :
    ∃ x, s.commit tx changes = (x, s') ∧ r = x.mapError CommitRefusal.toFault := by
  obtain ⟨x, s₁, hcall, hrest⟩ := h.of_bind
  refine ⟨x, ?_⟩
  suffices r = x.mapError CommitRefusal.toFault ∧ s₁ = s' from ⟨this.2 ▸ hcall.call, this.1⟩
  cases x
  case ok =>
    obtain ⟨rfl, rfl⟩ := RunsAlone.after_log hrest
    exact ⟨rfl, rfl⟩
  case error refusal =>
    cases refusal
    case fault =>
      obtain ⟨rfl, rfl⟩ := hrest
      exact ⟨rfl, rfl⟩
    case stale =>
      obtain ⟨rfl, rfl⟩ := RunsAlone.after_log hrest
      exact ⟨rfl, rfl⟩

-- Work that only reads leaves rows and versions as they are.
theorem Keeps.same {α : Type} {p : Program α} {Good : α → Prop} {a : α}
    (hp : p.Keeps (Request.Reads tx) Good) (h : p.RunsAlone s a s') :
    s'.rows = s.rows ∧ s'.version = s.version := by
  induction p generalizing s
  case done =>
    obtain ⟨-, rfl⟩ := h
    exact ⟨rfl, rfl⟩
  case ask r next ih =>
    have ⟨x, s₁, hx, hnext⟩ := h
    have ⟨hrows, hversion⟩ := ih x (hp.2 x) hnext
    have hs₁ : s₁.rows = s.rows ∧ s₁.version = s.version := by
      cases hp.1
      case log =>
        cases (hx : s₁ = s)
        exact ⟨rfl, rfl⟩
      all_goals
        rw [← show _ = s₁ from congrArg Prod.snd hx]
        obtain hsame | ⟨_, _, hcall, -⟩ := s.answer_same _
        · exact hsame
        · cases hcall
    exact ⟨hrows.trans hs₁.1, hversion.trans hs₁.2⟩

end Program

namespace Action

variable {α : Type} {c c' : Context} {known : Context → Option α}
  {answer : Store → Except Fault α × Store} {learn : Context → α → Context} {r : Except Fault α}

-- What a lookup comes to: its result, the context and the store.
inductive ReadAlone (finder : Finder) (known : Context → Option α)
    (answer : Store → Except Fault α × Store) (learn : Context → α → Context) (c : Context)
    (s : Store) : Except Fault α → Context → Store → Prop
  | known {a : α} (h : known c = some a) : ReadAlone finder known answer learn c s (.ok a) c s
  | prevented (h : known c = none) (hs : c.sealed) :
    ReadAlone finder known answer learn c s (.error (.storagePrevented finder.text)) c s
  | found {a : α} {s' : Store} (h : known c = none) (hs : c.sealed = false)
    (ha : answer s = (.ok a, s')) : ReadAlone finder known answer learn c s (.ok a) (learn c a) s'
  | failed {fault : Fault} {s' : Store} (h : known c = none) (hs : c.sealed = false)
    (ha : answer s = (.error fault, s')) : ReadAlone finder known answer learn c s (.error fault) c s'

theorem reading_alone {ask : TxId → Program (Except Fault α)}
    (hask : ∀ r s', (ask c.tx).RunsAlone s r s' → answer s = (r, s'))
    (h : RunsAlone (reading finder known ask learn c) s (r, c') s') :
    ReadAlone finder known answer learn c s r c' s' := by
  rw [reading] at h
  split at h
  case h_1 a ha =>
    obtain ⟨heq, rfl⟩ := h
    cases heq
    exact .known ha
  case h_2 hunknown =>
    split at h
    case isTrue hsealed =>
      obtain ⟨heq, rfl⟩ := h
      cases heq
      exact .prevented hunknown hsealed
    case isFalse hopen =>
      have hopen : c.sealed = false := by simpa using hopen
      obtain ⟨x, s₁, hx, hrest⟩ := h.of_bind
      cases x
      all_goals
        obtain ⟨heq, rfl⟩ := hrest
        cases heq
      case ok => exact .found hunknown hopen (hask _ _ hx)
      case error => exact .failed hunknown hopen (hask _ _ hx)

theorem lockFind_alone {r : Except Fault (Option Row)}
    (h : RunsAlone (lockFind kind finder c) s (r, c') s') :
    ReadAlone finder (·.lockedAnswer? kind finder) (·.find c.tx kind finder)
      (·.learnLocked kind finder) c s r c' s' :=
  reading_alone (fun _ _ => lockedFind_alone) h

theorem lockList_alone {r : Except Fault (List Row)}
    (h : RunsAlone (lockList kind finder c) s (r, c') s') :
    ReadAlone finder (·.lockedList? kind finder) (·.findList c.tx kind finder)
      (·.learnLockedList kind finder) c s r c' s' :=
  reading_alone (fun _ _ => lockedList_alone) h

theorem probe_alone {r : Except Fault (Option Row)} (h : RunsAlone (probe finder c) s (r, c') s') :
    ReadAlone finder (·.knownSingle? finder)
      (fun s => (.ok (s.rows.lookup finder), s.record (.probe c.tx finder))) (fun c _ => c)
      c s r c' s' :=
  reading_alone (fun r s' h => by obtain ⟨rfl, rfl⟩ := Program.probe_alone h; rfl) h

theorem find_alone {r : Except Fault (Option Row)} (h : RunsAlone (find finder c) s (r, c') s') :
    ReadAlone finder (·.knownAnswer? finder) (·.find c.tx .readCommitted finder) (·.learn finder)
      c s r c' s' :=
  reading_alone (fun _ _ => snapshotFind_alone) h

theorem findList_alone {r : Except Fault (List Row)}
    (h : RunsAlone (findList finder c) s (r, c') s') :
    ReadAlone finder (·.knownList? finder) (·.findList c.tx .readCommitted finder)
      (·.learnList finder) c s r c' s' :=
  reading_alone (fun _ _ => snapshotList_alone) h

theorem commit_alone {r : Except Fault Unit} (h : RunsAlone (commit c) s (r, c') s') :
    (∃ fault, c.covered? = .error fault ∧ r = .error fault ∧ c' = c ∧ s' = s) ∨
      c.covered? = .ok () ∧ c' = { c with changes := [] } ∧ ∃ x,
        s.commit c.tx c.changes = (x, s') ∧ r = x.mapError CommitRefusal.toFault := by
  rw [commit_eq] at h
  split at h
  case h_1 fault hcovered =>
    obtain ⟨heq, rfl⟩ := h
    cases heq
    exact .inl ⟨fault, hcovered, rfl, rfl, rfl⟩
  case h_2 hcovered =>
    obtain ⟨r, s₁, hcall, heq, rfl⟩ := (RunsAlone.after_log h).of_bind
    cases heq
    exact .inr ⟨hcovered, rfl, Program.commit_alone hcall⟩

end Action

end NamespaceService
