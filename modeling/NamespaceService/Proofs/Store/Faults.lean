import NamespaceService.Proofs.Store.Versions

namespace NamespaceService.Store

variable {ε α : Type} {s : Store} {tx : TxId} {kind : LockKind} {finder : Finder} {key : Key}
  {found : List Row}

def dropFault (s : Store) (operation : Operation) : Store :=
  { s with faults := fun o => if o = operation then (s.faults o).tail else s.faults o }

theorem guarded_cases (s : Store) (operation : Operation) (onFault : Fault → ε)
    (act : Except ε α × Store) :
    s.faults operation = [] ∧ s.guarded operation onFault act = act ∨
      ∃ fault rest, s.faults operation = fault :: rest ∧
        s.guarded operation onFault act = (.error (onFault fault), s.dropFault operation) := by
  rw [guarded]
  split
  case h_1 hquiet => exact .inl ⟨hquiet, rfl⟩
  case h_2 fault rest hqueued =>
    refine .inr ⟨fault, rest, hqueued, ?_⟩
    simp only [dropFault, Prod.mk.injEq, true_and, Store.mk.injEq]
    refine ⟨funext fun o => ?_, trivial⟩
    split
    case isTrue ho => rw [ho, hqueued, List.tail_cons]
    case isFalse => rfl

-- A lookup that is served is recorded, and the version it rests on is observed.
def asked (s : Store) (tx : TxId) (kind : LockKind) (finder : Finder) : Store :=
  match restsOn? finder (s.rows.lookup finder) with
  | some key => (s.record (.find tx kind finder)).observe tx kind key
  | none => s.record (.find tx kind finder)

def listed (s : Store) (tx : TxId) (kind : LockKind) (finder : Finder) : Store :=
  (s.rows.lookupList finder).foldl (fun s row => s.observe tx kind row.key)
    (s.record (.findList tx kind finder))

theorem find_cases (s : Store) (tx : TxId) (kind : LockKind) (finder : Finder) :
    s.faults .find = [] ∧
      s.find tx kind finder = (.ok (s.rows.lookup finder), s.asked tx kind finder) ∨
    ∃ fault rest, s.faults .find = fault :: rest ∧
      s.find tx kind finder = (.error fault, s.dropFault .find) :=
  s.guarded_cases ..

theorem findList_cases (s : Store) (tx : TxId) (kind : LockKind) (finder : Finder) :
    s.faults .find = [] ∧
      s.findList tx kind finder = (.ok (s.rows.lookupList finder), s.listed tx kind finder) ∨
    ∃ fault rest, s.faults .find = fault :: rest ∧
      s.findList tx kind finder = (.error fault, s.dropFault .find) :=
  s.guarded_cases ..

theorem observe_events : (s.observe tx kind key).events = s.events := by
  rw [observe]
  split <;> rfl

theorem foldl_observe_events :
    (found.foldl (fun s row => s.observe tx kind row.key) s).events = s.events := by
  induction found generalizing s
  case nil => rfl
  case cons row found ih => exact ih.trans observe_events

theorem foldl_observe_faults :
    (found.foldl (fun s row => s.observe tx kind row.key) s).faults = s.faults := by
  induction found generalizing s
  case nil => rfl
  case cons row found ih => exact ih.trans (observe_faults ..)

@[simp]
theorem asked_rows : (s.asked tx kind finder).rows = s.rows := by
  rw [asked]
  split <;> simp

@[simp]
theorem asked_version : (s.asked tx kind finder).version = s.version := by
  rw [asked]
  split <;> simp

@[simp]
theorem asked_faults : (s.asked tx kind finder).faults = s.faults := by
  rw [asked]
  split <;> simp

@[simp]
theorem asked_begun : (s.asked tx kind finder).begun = s.begun := by
  rw [asked]
  split <;> simp

theorem asked_events : (s.asked tx kind finder).events = s.events ++ [.find tx kind finder] := by
  rw [asked]
  split
  case h_1 => exact observe_events
  case h_2 => rfl

@[simp]
theorem listed_rows : (s.listed tx kind finder).rows = s.rows :=
  foldl_observe_rows

@[simp]
theorem listed_version : (s.listed tx kind finder).version = s.version :=
  foldl_observe_version

@[simp]
theorem listed_faults : (s.listed tx kind finder).faults = s.faults :=
  foldl_observe_faults

@[simp]
theorem listed_begun : (s.listed tx kind finder).begun = s.begun :=
  foldl_observe_begun

theorem listed_events : (s.listed tx kind finder).events = s.events ++ [.findList tx kind finder] :=
  foldl_observe_events

theorem commit_cases (s : Store) (tx : TxId) (changes : List Change) :
    s.faults .commit = [] ∧ s.stale? tx = none ∧ s.commit tx changes =
        (.ok (), (changes.foldl apply s).record (.commit tx changes.length)) ∨
      (∃ key, s.faults .commit = [] ∧ s.stale? tx = some key ∧
        s.commit tx changes = (.error (.stale key), s)) ∨
      ∃ fault rest, s.faults .commit = fault :: rest ∧
        s.commit tx changes = (.error (.fault fault), s.dropFault .commit) := by
  rw [commit]
  cases hstale : s.stale? tx
  case none =>
    exact (s.guarded_cases .commit _ _).imp (fun h => ⟨h.1, rfl, h.2⟩) .inr
  case some key =>
    exact .inr ((s.guarded_cases .commit _ _).imp (fun h => ⟨key, h.1, rfl, h.2⟩) id)

theorem commit_error {changes : List Change} {refusal : CommitRefusal}
    (h : (s.commit tx changes).1 = .error refusal) :
    (s.commit tx changes).2.rows = s.rows ∧ (s.commit tx changes).2.version = s.version := by
  obtain ⟨-, -, heq⟩ | ⟨_, -, -, heq⟩ | ⟨_, _, -, heq⟩ := s.commit_cases tx changes
  · cases (congrArg Prod.fst heq).symm.trans h
  all_goals exact heq ▸ ⟨rfl, rfl⟩

theorem commit_ok {changes : List Change} (h : (s.commit tx changes).1 = .ok ()) :
    s.commit tx changes =
      (.ok (), (changes.foldl apply s).record (.commit tx changes.length)) := by
  obtain ⟨-, -, heq⟩ | ⟨_, -, -, heq⟩ | ⟨_, _, -, heq⟩ := s.commit_cases tx changes
  · exact heq
  all_goals cases (congrArg Prod.fst heq).symm.trans h

-- Only a commit that is accepted changes rows and versions.
theorem answer_same (s : Store) (call : Call) :
    ((s.answer call).2.rows = s.rows ∧ (s.answer call).2.version = s.version) ∨
      ∃ tx changes, call = .commit tx changes ∧ (s.commit tx changes).1 = .ok () := by
  cases call
  case begin =>
    obtain ⟨-, heq⟩ | ⟨_, _, -, heq⟩ := s.guarded_cases .begin id _
    all_goals exact .inl ⟨congrArg (rows ∘ Prod.snd) heq, congrArg (version ∘ Prod.snd) heq⟩
  case find tx kind finder =>
    obtain ⟨-, heq⟩ | ⟨_, _, -, heq⟩ := s.find_cases tx kind finder
    all_goals simp [answer, heq, dropFault]
  case findList tx kind finder =>
    obtain ⟨-, heq⟩ | ⟨_, _, -, heq⟩ := s.findList_cases tx kind finder
    all_goals simp [answer, heq, dropFault]
  case probe => exact .inl ⟨rfl, rfl⟩
  case commit tx changes =>
    cases hres : (s.commit tx changes).1
    case ok => exact .inr ⟨tx, changes, rfl, hres⟩
    case error => exact .inl (commit_error hres)
  case rollback tx =>
    obtain ⟨-, heq⟩ | ⟨_, _, -, heq⟩ := s.guarded_cases .rollback id (.ok (), s.record (.rollback tx))
    all_goals exact .inl ⟨congrArg (rows ∘ Prod.snd) heq, congrArg (version ∘ Prod.snd) heq⟩

-- The store as it would be if no faults were queued.
def quieted (s : Store) : Store :=
  { s with faults := fun _ => [] }

-- The answer is a fault that was queued.
def Call.faulted : (call : Call) → call.Response → Bool
  | .begin, .error _ => true
  | .find .., .error _ => true
  | .findList .., .error _ => true
  | .commit .., .error (.fault _) => true
  | .rollback _, .error _ => true
  | _, _ => false

theorem quieted_observe : (s.observe tx kind key).quieted = s.quieted.observe tx kind key := by
  rw [observe, observe]
  split
  case isTrue h => exact (if_pos h).symm
  case isFalse h => exact (if_neg h).symm

theorem quieted_foldl_observe :
    (found.foldl (fun s row => s.observe tx kind row.key) s).quieted =
      found.foldl (fun s row => s.observe tx kind row.key) s.quieted := by
  induction found generalizing s
  case nil => rfl
  case cons row found ih => exact ih.trans (by rw [quieted_observe]; rfl)

theorem quieted_asked : (s.asked tx kind finder).quieted = s.quieted.asked tx kind finder := by
  rw [asked, asked]
  change _ = match restsOn? finder (s.rows.lookup finder) with
    | some key => (s.record (.find tx kind finder)).quieted.observe tx kind key
    | none => (s.record (.find tx kind finder)).quieted
  split
  case h_1 => exact quieted_observe
  case h_2 => rfl

theorem quieted_listed : (s.listed tx kind finder).quieted = s.quieted.listed tx kind finder :=
  quieted_foldl_observe

theorem quieted_bumpOwner {row : Row} : (s.bumpOwner row).quieted = s.quieted.bumpOwner row := by
  rw [bumpOwner, bumpOwner]
  split <;> rfl

theorem quieted_apply {change : Change} : (s.apply change).quieted = s.quieted.apply change := by
  cases change
  case upsert row =>
    rw [apply, apply, ← quieted_bumpOwner]
    rfl
  case remove key =>
    have hsame : s.quieted.rows.find? key = s.rows.find? key := rfl
    rw [apply, apply, hsame]
    cases s.rows.find? key
    case none => rfl
    case some old =>
      simp only [← quieted_bumpOwner]
      rfl

theorem quieted_foldl_apply {changes : List Change} :
    (changes.foldl apply s).quieted = changes.foldl apply s.quieted := by
  induction changes generalizing s
  case nil => rfl
  case cons change changes ih => exact ih.trans (by rw [quieted_apply]; rfl)

-- A call is answered as without the queue, or with a fault, and then that is all it does.
theorem answer_quieted (s : Store) (call : Call) :
    call.faulted (s.answer call).1 = true ∧ (s.answer call).2.quieted = s.quieted ∨
      call.faulted (s.answer call).1 = false ∧
        s.quieted.answer call = ((s.answer call).1, (s.answer call).2.quieted) := by
  cases call
  case begin =>
    obtain ⟨-, heq⟩ | ⟨_, _, -, heq⟩ := s.guarded_cases .begin id
      (.ok (s.begun + 1), { s.record (.begin (s.begun + 1)) with begun := s.begun + 1 })
    · refine .inr ?_
      rw [answer, begin, heq]
      exact ⟨rfl, rfl⟩
    · refine .inl ?_
      rw [answer, begin, heq]
      exact ⟨rfl, rfl⟩
  case find tx kind finder =>
    obtain ⟨-, heq⟩ | ⟨_, _, -, heq⟩ := s.find_cases tx kind finder
    · refine .inr ?_
      rw [answer, heq, quieted_asked]
      exact ⟨rfl, rfl⟩
    · refine .inl ?_
      rw [answer, heq]
      exact ⟨rfl, rfl⟩
  case findList tx kind finder =>
    obtain ⟨-, heq⟩ | ⟨_, _, -, heq⟩ := s.findList_cases tx kind finder
    · refine .inr ?_
      rw [answer, heq, quieted_listed]
      exact ⟨rfl, rfl⟩
    · refine .inl ?_
      rw [answer, heq]
      exact ⟨rfl, rfl⟩
  case probe tx finder => exact .inr ⟨rfl, rfl⟩
  case commit tx changes =>
    obtain ⟨-, hstale, heq⟩ | ⟨key, -, hstale, heq⟩ | ⟨_, _, -, heq⟩ := s.commit_cases tx changes
    · refine .inr ?_
      have hquiet : s.quieted.stale? tx = none := hstale
      rw [answer, answer, heq, commit, hquiet]
      refine ⟨rfl, Prod.ext rfl ?_⟩
      exact congrArg (record · _) quieted_foldl_apply.symm
    · refine .inr ?_
      have hquiet : s.quieted.stale? tx = some key := hstale
      rw [answer, answer, heq, commit, hquiet]
      exact ⟨rfl, rfl⟩
    · refine .inl ?_
      rw [answer, heq]
      exact ⟨rfl, rfl⟩
  case rollback tx =>
    obtain ⟨-, heq⟩ | ⟨_, _, -, heq⟩ := s.guarded_cases .rollback id (.ok (), s.record (.rollback tx))
    · refine .inr ?_
      rw [answer, rollback, heq]
      exact ⟨rfl, rfl⟩
    · refine .inl ?_
      rw [answer, rollback, heq]
      exact ⟨rfl, rfl⟩

end NamespaceService.Store
