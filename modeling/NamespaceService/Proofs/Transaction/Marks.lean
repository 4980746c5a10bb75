import NamespaceService.Proofs.Transaction.Solo

namespace NamespaceService

-- A commit leaves its mark only if it is accepted, a rollback whatever the store says.
inductive Mark
  | begun (tx : TxId)
  | committed (tx : TxId)
  | rolledBack (tx : TxId)
  | reported (report : AttemptReport)
deriving DecidableEq

namespace Mark

def report? : Mark → Option AttemptReport
  | reported report => some report
  | _ => none

def isReport (mark : Mark) : Bool :=
  mark.report?.isSome

def isCommit : Mark → Bool
  | committed _ => true
  | _ => false

end Mark

namespace Request

def mark? : (r : Request) → r.Response → Option Mark
  | .store .begin, .ok tx => some (.begun tx)
  | .store (.commit tx _), .ok () => some (.committed tx)
  | .store (.rollback tx), _ => some (.rolledBack tx)
  | .report made, _ => some (.reported made)
  | _, _ => none

theorem mark?_store_reports (call : Store.Call) (x : (store call).Response) :
    ((store call).mark? x).toList.filterMap Mark.report? = [] := by
  cases call
  case begin => cases (x : Except Fault TxId) <;> rfl
  case commit => cases (x : Except CommitRefusal Unit) <;> rfl
  all_goals rfl

-- Log lines, and requests that only read the store.
def Quiet : Request → Prop
  | .log _ | .store (.find ..) | .store (.findList ..) | .store (.probe ..) => True
  | _ => False

theorem Quiet.mark?_eq {r : Request} (h : r.Quiet) (x : r.Response) : r.mark? x = none := by
  cases r
  case log => rfl
  case store call =>
    cases call
    case find | findList | probe => rfl
    all_goals exact h.elim
  all_goals exact h.elim

theorem Reads.quiet {tx : TxId} {r : Request} (h : r.Reads tx) : r.Quiet := by
  cases h <;> trivial

end Request

namespace Program

variable {α β : Type} {p : Program α} {f : α → Program β} {w w' w'' : World}
  {marks marks' : List Mark} {a : α} {b : β} {P : Request → Prop} {Good : α → Prop}

-- The program makes `w'` of the world `w`, leaves the marks and ends with `a`.
def Plays : Program α → World → List Mark → α → World → Prop
  | done b, w, marks, a, w' => marks = [] ∧ b = a ∧ w = w'
  | ask r next, w, marks, a, w'' => ∃ x w' rest, w.perform r = some (x, w') ∧
    marks = (r.mark? x).toList ++ rest ∧ (next x).Plays w' rest a w''

namespace Plays

theorem done : (done a).Plays w [] a w :=
  ⟨rfl, rfl, rfl⟩

theorem ask {r : Request} {next : r.Response → Program α} {x : r.Response}
    (hx : w.perform r = some (x, w')) (h : (next x).Plays w' marks a w'') :
    (Program.ask r next).Plays w ((r.mark? x).toList ++ marks) a w'' :=
  ⟨x, w', marks, hx, rfl, h⟩

theorem bind (hp : p.Plays w marks a w') (hf : (f a).Plays w' marks' b w'') :
    (p >>= f).Plays w (marks ++ marks') b w'' := by
  induction p generalizing w marks
  case done c =>
    obtain ⟨rfl, rfl, rfl⟩ := hp
    exact hf
  case ask r next ih =>
    obtain ⟨x, w₁, rest, hx, rfl, hnext⟩ := hp
    rw [List.append_assoc]
    exact .ask hx (ih x hnext)

theorem of_bind (h : (p >>= f).Plays w marks b w'') : ∃ before after a w',
    marks = before ++ after ∧ p.Plays w before a w' ∧ (f a).Plays w' after b w'' := by
  induction p generalizing w marks
  case done a => exact ⟨[], marks, a, w, rfl, done, h⟩
  case ask r next ih =>
    obtain ⟨x, w₁, rest, hx, rfl, hnext⟩ := h
    obtain ⟨before, after, a, w', rfl, hp, hf⟩ := ih x hnext
    exact ⟨_, after, a, w', (List.append_assoc ..).symm, .ask hx hp, hf⟩

theorem run_eq (h : p.Plays w marks a w') : p.run w = some (a, w') := by
  induction p generalizing w marks
  case done b =>
    obtain ⟨-, rfl, rfl⟩ := h
    rfl
  case ask r next ih =>
    obtain ⟨x, w₁, rest, hx, -, hnext⟩ := h
    rw [run, hx]
    exact ih x hnext

theorem log {level : Level} {message : String} {x : Unit}
    (h : (Program.log level message).Plays w marks x w') : marks = [] ∧ w'.store = w.store := by
  obtain ⟨_, _, _, hx, hmarks, rfl, -, rfl⟩ := h
  cases hx
  exact ⟨hmarks, rfl⟩

theorem after_log {level : Level} {message : String} {f : Unit → Program β}
    (h : (Program.log level message >>= f).Plays w marks b w'') :
    ∃ w', w'.store = w.store ∧ (f ()).Plays w' marks b w'' := by
  obtain ⟨_, after, _, w', rfl, hlog, hrest⟩ := h.of_bind
  obtain ⟨rfl, hstore⟩ := log hlog
  exact ⟨w', hstore, hrest⟩

-- The reports among the marks are what is reported.
theorem reports_eq (h : p.Plays w marks a w') :
    w'.reports = w.reports ++ marks.filterMap Mark.report? := by
  induction p generalizing w marks
  case done =>
    obtain ⟨rfl, -, rfl⟩ := h
    simp
  case ask r next ih =>
    obtain ⟨x, w₁, rest, hx, rfl, hnext⟩ := h
    have hfirst : w₁.reports = w.reports ++ (r.mark? x).toList.filterMap Mark.report? := by
      cases r
      case store call =>
        rw [Request.mark?_store_reports, List.append_nil]
        cases hx
        rfl
      case report =>
        cases hx
        rfl
      case lockStorage storage =>
        rw [World.perform] at hx
        split at hx <;> cases hx
        exact (List.append_nil _).symm
      case lockCoarse mode =>
        obtain ⟨coarse, -, heq⟩ := Option.map_eq_some_iff.mp hx
        cases heq
        exact (List.append_nil _).symm
      all_goals
        cases hx
        exact (List.append_nil _).symm
    rw [ih x hnext, hfirst, List.filterMap_append, List.append_assoc]

end Plays

-- Requests that only read leave no mark.
theorem Keeps.quiet (hp : p.Keeps P Good) (hP : ∀ r, P r → r.Quiet) (h : p.Plays w marks a w') :
    marks = [] ∧ w'.store.rows = w.store.rows ∧ Good a := by
  induction p generalizing w marks
  case done =>
    obtain ⟨rfl, rfl, rfl⟩ := h
    exact ⟨rfl, rfl, hp⟩
  case ask r next ih =>
    obtain ⟨x, w₁, rest, hx, rfl, hnext⟩ := h
    obtain ⟨rfl, hrows, hgood⟩ := ih x (hp.2 x) hnext
    have hquiet := hP r hp.1
    rw [hquiet.mark?_eq]
    refine ⟨rfl, hrows.trans ?_, hgood⟩
    cases r
    case log =>
      cases hx
      rfl
    case store call =>
      cases hx
      obtain hsame | ⟨tx, changes, rfl, -⟩ := w.store.answer_same call
      · exact hsame.1
      · exact hquiet.elim
    all_goals exact hquiet.elim

-- A program that never waits runs to its end.
theorem Only.exists_plays (hp : p.Only Request.Plain) (w : World) :
    ∃ marks a w', p.Plays w marks a w' := by
  induction p generalizing w
  case done a => exact ⟨[], a, w, .done⟩
  case ask r next ih =>
    obtain ⟨x, w₁, hx, -⟩ := w.perform_plain hp.1
    obtain ⟨marks, a, w', hnext⟩ := ih x (hp.2 x) w₁
    exact ⟨_, a, w', .ask hx hnext⟩

theorem Plays.alone (h : p.Plays w marks a w') (hp : p.Only Request.Plain) :
    p.RunsAlone w.store a w'.store :=
  .of_run hp h.run_eq

-- What a program leaves behind depends on the store alone, and not on whom its log lines belong to.
theorem Plays.claimedBy {v : World} (h : p.Plays w marks a w') (hp : p.Only Request.Plain)
    (hv : v.store = w.store) (name : String) :
    ∃ v', (p.claimedBy name).Plays v marks a v' ∧ v'.store = w'.store := by
  induction p generalizing w marks v
  case done =>
    obtain ⟨rfl, rfl, rfl⟩ := h
    exact ⟨v, .done, hv⟩
  case ask r next ih =>
    obtain ⟨x, w₁, rest, hx, rfl, hnext⟩ := h
    cases r
    case store call =>
      obtain ⟨rfl, rfl⟩ := Prod.mk.inj (Option.some.inj hx)
      obtain ⟨v', hplays, hstore⟩ :=
        ih _ hnext (hp.2 _) (v := { v with store := (w.store.answer call).2 }) rfl
      have hperform : v.perform (.store call) =
          some ((w.store.answer call).1, { v with store := (w.store.answer call).2 }) := by
        rw [← hv]
        rfl
      exact ⟨v', .ask hperform hplays, hstore⟩
    case log line =>
      cases hx
      obtain ⟨v', hplays, hstore⟩ :=
        ih () hnext (hp.2 ()) (v := { v with log := v.log ++ [line.claimedBy name] }) hv
      exact ⟨v', .ask rfl hplays, hstore⟩
    case report made =>
      cases hx
      obtain ⟨v', hplays, hstore⟩ :=
        ih () hnext (hp.2 ()) (v := { v with reports := v.reports ++ [made] }) hv
      exact ⟨v', .ask rfl hplays, hstore⟩
    all_goals exact hp.1.elim

end Program

end NamespaceService
