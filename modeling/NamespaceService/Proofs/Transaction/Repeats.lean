import NamespaceService.Proofs.Transaction.Learning

namespace NamespaceService

open Program

namespace Context

variable {c c' : Context} {rows : Rows} {finder : Finder} {kind : LockKind} {row : Row}

-- The row is known, and so is that the lookup finds it.
structure Knows (c : Context) (finder : Finder) (row : Row) : Prop where
  known : c.rows row.key = some row
  found : c.singles finder = some (some row.key) ∨ finder.key? = some row.key

namespace Knows

theorem recollects (h : c.Knows finder row) (hc : c.Recollects c') : c'.Knows finder row where
  known := hc.row h.known
  found := h.found.imp_left hc.single

theorem lookup_eq (h : c.Knows finder row) (hc : c.Reflects rows) :
    rows.lookup finder = some row := by
  obtain hsingle | hkey := h.found
  · obtain ⟨found, hlookup, hkey, hknown⟩ := hc.single hsingle
    rw [hlookup, ← hknown, h.known]
  · rw [Rows.lookup_of_key? hkey, hc.row h.known]

theorem lockedAnswer? (h : c.Knows finder row) (hc : c.Reflects rows)
    (hholds : c.locks.holds row.key kind) : c.lockedAnswer? kind finder = some (some row) := by
  rw [Context.lockedAnswer?]
  split
  case h_1 key hsingle =>
    have hkey := hc.key_of_single hsingle
    rw [h.lookup_eq hc, Option.map_some, Option.some.injEq] at hkey
    rw [if_pos (hkey ▸ hholds), ← hkey, h.known]
  case h_2 hnone =>
    have hkey := h.found.resolve_left (hnone _)
    simp [lockedRow?, hkey, hholds, h.known]

end Knows

-- An answer that is known to a lookup under a lock is a row.
theorem Reflects.knows (h : c.Reflects rows) {found : Option Row}
    (hfound : c.lockedAnswer? kind finder = some found) :
    ∃ row, found = some row ∧ c.Knows finder row := by
  obtain ⟨key, -, hkey, rfl⟩ | ⟨key, row, -, hkey, hrow, rfl⟩ := lockedAnswer?_cases hfound
  · obtain ⟨row, -, rfl, hknown⟩ := h.single hkey
    exact ⟨row, hknown, hknown, .inl hkey⟩
  · obtain rfl := SortedBy.key_of_find? (h.row hrow)
    exact ⟨row, rfl, hrow, .inr hkey⟩

theorem learnLocked_knows : (c.learnLocked kind finder (some row)).Knows finder row where
  known := (remember_rows _).trans (if_pos rfl)
  found := .inl ((setSingle_singles finder).trans (if_pos rfl))

end Context

namespace Session

variable {x : Entry} {xs : List Entry} {c c' : Context} {rows : Rows} {kind : LockKind}
  {finder : Finder} {found : Option Row}

theorem Entry.recollects (hstep : x.step.finds ∨ x.step = .endLockPhase)
    (hnames : NamesApart x.rows.find?)
    (hrun : (x.step.run c).run x.before = some ((x.reply, c'), x.after)) (hc : c.Reflects x.rows) :
    c'.Reflects x.rows ∧ c.Recollects c' := by
  obtain hfinds | hends := hstep
  · cases comes hfinds hrun
    case answered => exact hc.step_learn hnames
    all_goals exact ⟨hc, .refl c⟩
  · obtain ⟨rfl, -⟩ := eq_written (.inr hends) hrun
    rw [hends]
    exact ⟨hc.of_eq rfl rfl rfl, .of_eq rfl rfl⟩

theorem Transcript.recollects (h : Transcript c xs c')
    (hsteps : ∀ x ∈ xs, x.step.finds ∨ x.step = .endLockPhase) (hrows : ∀ x ∈ xs, x.rows = rows)
    (hnames : NamesApart rows.find?) (hc : c.Reflects rows) : c'.Reflects rows ∧ c.Recollects c' := by
  induction h
  case nil => exact ⟨hc, .refl _⟩
  case cons x xs hrun _ ih =>
    obtain ⟨hstep, hlater⟩ := List.forall_mem_cons.mp hsteps
    obtain ⟨rfl, hsame⟩ := List.forall_mem_cons.mp hrows
    obtain ⟨hc₁, hfirst⟩ := Entry.recollects hstep hnames hrun hc
    obtain ⟨hc', hrest⟩ := ih hlater hsame hc₁
    exact ⟨hc', hfirst.trans hrest⟩

-- What a lookup under a lock has found is what the rows give, and a row that it found is known.
theorem Entry.found_knows (hstep : x.step = .lockFind kind finder) (hreply : x.reply = .ok (.row found))
    (hrun : (x.step.run c).run x.before = some ((x.reply, c'), x.after)) (hc : c.Reflects x.rows) :
    found = x.rows.lookup finder ∧ ∀ row, found = some row → c'.Knows finder row := by
  cases comes (by rw [hstep]; rfl) hrun
  case known hknown hsame _ =>
    rw [hstep] at hknown
    obtain ⟨_, hanswer, rfl⟩ := Option.map_eq_some_iff.mp hknown
    cases hsame.symm.trans hreply
    obtain ⟨row, rfl, hknows⟩ := hc.knows hanswer
    refine ⟨hc.lockedAnswer? hanswer, fun _ hrow => ?_⟩
    cases hrow
    exact hknows
  case failed herror _ => cases herror.symm.trans hreply
  case answered hdirect hsame _ =>
    rw [hstep] at hdirect
    cases hdirect
    cases hsame.symm.trans hreply
    refine ⟨rfl, fun row hrow => ?_⟩
    rw [hstep, ContextStep.learn, hrow]
    exact Context.learnLocked_knows

end Session

namespace Action

variable {c : Context} {w : World} {kind : LockKind} {finder : Finder}

theorem lockFind_of_known {found : Option Row} (h : c.lockedAnswer? kind finder = some found) :
    (lockFind kind finder c).run w = some ((.ok found, c), w) := by
  rw [lockFind, reading, h, run_done]

theorem lockFind_of_sealed (h : c.lockedAnswer? kind finder = none) (hs : c.sealed) :
    (lockFind kind finder c).run w = some ((.error (.storagePrevented finder.text), c), w) := by
  rw [lockFind, reading, h]
  simp only [hs, if_true, run_done]

-- A lookup that the context cannot answer is a call of the store, or a fault that is queued for it.
theorem lockFind_of_open (h : c.lockedAnswer? kind finder = none) (ho : c.sealed = false) :
    ∃ r c' w', (lockFind kind finder c).run w = some ((r, c'), w') ∧
      ((∃ fault, w.store.faults .find ≠ [] ∧ r = .error fault ∧ c' = c) ∨
        r = .ok (w.store.rows.lookup finder) ∧
          c' = c.learnLocked kind finder (w.store.rows.lookup finder) ∧
          w'.store.events = w.store.events ++ [.find c.tx kind finder]) := by
  obtain ⟨⟨r, c'⟩, s', halone⟩ := exists_runsAlone (Stage.Straight.lockFind.reads.plain c) w.store
  obtain ⟨w', hrun, hstore⟩ := halone.run
  refine ⟨r, c', w', hrun, ?_⟩
  cases lockFind_alone halone
  case known hknown => cases h.symm.trans hknown
  case prevented hs => cases ho.symm.trans hs
  case found ha =>
    obtain ⟨-, heq⟩ | ⟨_, _, -, heq⟩ := w.store.find_cases c.tx kind finder
    all_goals cases heq.symm.trans ha
    exact .inr ⟨rfl, rfl, hstore ▸ Store.asked_events⟩
  case failed ha =>
    obtain ⟨-, heq⟩ | ⟨fault, rest, hqueued, heq⟩ := w.store.find_cases c.tx kind finder
    all_goals cases heq.symm.trans ha
    exact .inl ⟨_, by simp [hqueued], rfl, rfl⟩

-- What is missing is asked for though its key is held, and then it is held as before.
theorem lockFind_of_absent {rows : Rows} {key : Key} (hc : c.Reflects rows) (hw : w.store.rows = rows)
    (habsent : rows.lookup finder = none) (hkey : finder.key? = some key)
    (hholds : c.locks.holds key kind) :
    ∃ r c' w', (lockFind kind finder c).run w = some ((r, c'), w') ∧ c'.locks = c.locks ∧
      ¬(r = .ok none ∧ w' = w) ∧ if c.sealed then r = .error (.storagePrevented finder.text) ∧ w' = w
        else w.store.faults .find = [] → r = .ok none ∧
          w'.store.events = w.store.events ++ [.find c.tx kind finder] := by
  have hunknown : c.lockedAnswer? kind finder = none := by
    by_contra hsome
    obtain ⟨answer, hanswer⟩ := Option.ne_none_iff_exists'.mp hsome
    obtain ⟨row, rfl, hrow⟩ := hc.knows hanswer
    cases habsent.symm.trans (hrow.lookup_eq hc)
  subst hw
  cases hs : c.sealed
  case true => exact ⟨_, _, _, lockFind_of_sealed hunknown hs, rfl, by simp, by simp⟩
  case false =>
    obtain ⟨r, c', w', hrun, hend⟩ := lockFind_of_open (w := w) hunknown hs
    refine ⟨r, c', w', hrun, ?_⟩
    obtain ⟨fault, hqueued, rfl, rfl⟩ | ⟨rfl, rfl, hevents⟩ := hend
    · simp [hqueued]
    · refine ⟨?_, ?_, by simpa [habsent] using fun _ => hevents⟩
      · rw [Context.learnLocked_locks, Rows.grant_of_key hkey]
        exact if_pos hholds
      · rintro ⟨-, rfl⟩
        simp at hevents

end Action

namespace Session

variable {x : Entry} {xs ys : List Entry} {c : Context} {w : World} {rows : Rows} {tx : TxId}
  {kind kind' : LockKind} {finder : Finder} {found : Option Row} {key : Key}

-- A lookup under a lock found something or nothing, and later the key that it locked is held strongly
-- enough. Made again, it leaves the locks as they are. If and only if it had found a row, it gives
-- the same and asks for nothing; otherwise it asks again, or is refused after the lock phase.
theorem Transcript.repeated_iff (h : Transcript (.new tx) (xs ++ x :: ys) c)
    (hsteps : ∀ y ∈ xs ++ x :: ys, y.step.finds ∨ y.step = .endLockPhase)
    (hrows : ∀ y ∈ xs ++ x :: ys, y.rows = rows) (hnames : NamesApart rows.find?)
    (hstep : x.step = .lockFind kind' finder) (hreply : x.reply = .ok (.row found))
    (hkey : Store.restsOn? finder found = some key) (hholds : c.locks.holds key kind)
    (hw : w.store.rows = rows) :
    ∃ r c' w', (Action.lockFind kind finder c).run w = some ((r, c'), w') ∧ c'.locks = c.locks ∧
      (r = .ok found ∧ w' = w ↔ found ≠ none) ∧
      (found = none → if c.sealed then r = .error (.storagePrevented finder.text) ∧ w' = w
        else w.store.faults .find = [] → r = .ok none ∧
          w'.store.events = w.store.events ++ [.find c.tx kind finder]) := by
  obtain ⟨c₁, hbefore, hafter⟩ := h.of_append
  obtain ⟨hsteps₁, hsteps₂⟩ := List.forall_mem_append.mp hsteps
  obtain ⟨hrows₁, hrows₂⟩ := List.forall_mem_append.mp hrows
  obtain ⟨hc₁, -⟩ := hbefore.recollects hsteps₁ hrows₁ hnames (.new rows tx)
  cases hafter
  case cons c₂ hrun hlater =>
  obtain ⟨hxstep, hsteps₃⟩ := List.forall_mem_cons.mp hsteps₂
  obtain ⟨rfl, hrows₃⟩ := List.forall_mem_cons.mp hrows₂
  obtain ⟨hc₂, -⟩ := Entry.recollects hxstep hnames hrun hc₁
  obtain ⟨hc, hrecollects⟩ := hlater.recollects hsteps₃ hrows₃ hnames hc₂
  obtain ⟨rfl, hknows⟩ := Entry.found_knows hstep hreply hrun hc₁
  cases hfound : x.rows.lookup finder
  case some row =>
    rw [hfound] at hkey
    cases hkey
    have hanswer := ((hknows row hfound).recollects hrecollects).lockedAnswer? hc hholds
    exact ⟨_, _, _, Action.lockFind_of_known hanswer, rfl, by simp, by simp⟩
  case none =>
    rw [hfound] at hkey
    obtain ⟨r, c', w', hrun, hlocks, hnot, hend⟩ :=
      Action.lockFind_of_absent hc hw hfound hkey hholds
    exact ⟨r, c', w', hrun, hlocks, by simpa using hnot, fun _ => hend⟩

-- A file is locked, and the lock phase ends.
theorem repeated_iff_oneFile : ∃ x y c, Transcript (.new 1) [x, y] c ∧
    x.step = .lockFind .write (.nodeNamed ⟨1⟩ "f") ∧ y.step = .endLockPhase ∧
    c.locks.holds (.node ⟨2⟩) .read ∧ ∃ r c' w,
      (Action.lockFind .read (.nodeNamed ⟨1⟩ "f") c).run { store := .ofRows ContextStep.oneFile } =
        some ((r, c'), w) ∧ c'.locks = c.locks ∧
      r = .ok (some (.node ⟨⟨2⟩, ⟨1⟩, "f", .file, []⟩)) ∧
      w = { store := .ofRows ContextStep.oneFile } := by
  obtain ⟨xs, c, h, hsteps, hcheck⟩ := Transcript.exists_checked
    [.lockFind .write (.nodeNamed ⟨1⟩ "f"), .endLockPhase] (.new 1)
    { store := .ofRows ContextStep.oneFile }
    (fun xs c => xs.all (·.rows = ContextStep.oneFile) && c.locks.holds (.node ⟨2⟩) .read &&
      xs.map Entry.row? = [some (some (.node ⟨⟨2⟩, ⟨1⟩, "f", .file, []⟩)), none]) (by decide +kernel)
  obtain ⟨x, y, rfl, hlock, hends⟩ := exists_pair hsteps
  simp only [Bool.and_eq_true, List.all_eq_true, decide_eq_true_eq, List.map_cons,
    List.cons.injEq] at hcheck
  obtain ⟨⟨hrows, hholds⟩, hreply, -⟩ := hcheck
  have hsplit : Transcript (.new 1) ([] ++ x :: [y]) c := h
  obtain ⟨r, c', w, hrun, hlocks, hsame, -⟩ := hsplit.repeated_iff
    (by simp [hlock, hends, ContextStep.finds]) hrows (by decide +kernel) hlock
    (Entry.row?_eq_some_iff.mp hreply) rfl hholds
    (w := { store := .ofRows ContextStep.oneFile }) rfl
  obtain ⟨hr, hw⟩ := hsame.mpr (by simp)
  exact ⟨x, y, c, h, hlock, hends, hholds, r, c', w, hrun, hlocks, hr, hw⟩

-- The place of a new file is locked, and the lock phase ends. That the file is missing cannot be read
-- again.
theorem missing_refused : ∃ x y c, Transcript (.new 1) [x, y] c ∧
    x.step = .lockFind .write (.node ⟨3⟩) ∧ x.reply = .ok (.row none) ∧ y.step = .endLockPhase ∧
    c.locks.holds (.node ⟨3⟩) .read ∧ ∀ w, ∃ fault,
      (Action.lockFind .read (.node ⟨3⟩) c).run w = some ((.error fault, c), w) := by
  obtain ⟨xs, c, h, hsteps, hcheck⟩ := Transcript.exists_checked
    [.lockFind .write (.node ⟨3⟩), .endLockPhase] (.new 1) { store := .ofRows ContextStep.oneFile }
    (fun xs c => c.sealed && c.locks.holds (.node ⟨3⟩) .read &&
      c.lockedAnswer? .read (.node ⟨3⟩) = none && xs.map Entry.row? = [some none, none])
    (by decide +kernel)
  obtain ⟨x, y, rfl, hlock, hends⟩ := exists_pair hsteps
  simp only [Bool.and_eq_true, decide_eq_true_eq, List.map_cons, List.cons.injEq] at hcheck
  obtain ⟨⟨⟨hs, hholds⟩, hunknown⟩, hreply, -⟩ := hcheck
  exact ⟨x, y, c, h, hlock, Entry.row?_eq_some_iff.mp hreply, hends, hholds,
    fun w => ⟨_, Action.lockFind_of_sealed hunknown hs⟩⟩

end Session

end NamespaceService
