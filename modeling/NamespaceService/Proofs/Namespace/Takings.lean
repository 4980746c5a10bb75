import NamespaceService.Proofs.Namespace.OnDemand
import NamespaceService.Proofs.Transaction.Reflection
import NamespaceService.Proofs.Transaction.Solo

namespace NamespaceService

open Program

namespace Rows

variable (rows : Rows)

-- Each with whether it is found in a list.
def one (finder : Finder) : List (Key × Bool) :=
  (Store.restsOn? finder (rows.lookup finder)).toList.map (·, false)

def many (finder : Finder) : List (Key × Bool) :=
  (rows.lookupList finder).map fun row => (row.key, true)

def taken : Event → List (Key × Bool)
  | .find _ kind finder => if kind = .readCommitted then [] else rows.one finder
  | .findList _ kind finder => if kind = .readCommitted then [] else rows.many finder
  | _ => []

end Rows

namespace Action

open Stage

variable {α β : Type} {rows : Rows} {m : Action α} {f : α → Action β} {finder : Finder}
  {kind : LockKind} {P Q : α → List (Key × Bool) → Prop} {R : β → List (Key × Bool) → Prop}

-- If the action comes to an end, `P` says what it gives and takes.
def Takes (rows : Rows) (m : Action α) (P : α → List (Key × Bool) → Prop) : Prop :=
  ∀ c s a c' s', s.rows = rows → c.Reflects rows → (m c).RunsAlone s (.ok a, c') s' →
    c'.Reflects rows ∧ s'.rows = rows ∧
      ∃ events, s'.events = s.events ++ events ∧ P a (events.flatMap rows.taken)

namespace Takes

theorem mono (h : Takes rows m P) (hPQ : ∀ a l, P a l → Q a l) : Takes rows m Q := by
  intro c s a c' s' hs hc hrun
  obtain ⟨hc', hs', events, hevents, hP⟩ := h c s a c' s' hs hc hrun
  exact ⟨hc', hs', events, hevents, hPQ _ _ hP⟩

theorem of_done {x : Except Fault α} (hm : ∀ c, m c = .done (x, c)) (hP : ∀ a, x = .ok a → P a []) :
    Takes rows m P := by
  intro c s a c' s' hs hc hrun
  rw [hm] at hrun
  obtain ⟨heq, rfl⟩ := hrun
  cases heq
  exact ⟨hc, hs, [], (List.append_nil _).symm, hP a rfl⟩

theorem pure {a : α} (h : P a []) : Takes rows (pure a) P := by
  refine of_done (x := .ok a) (fun _ => rfl) ?_
  rintro _ ⟨⟩
  exact h

theorem ofExcept {x : Except Fault α} : Takes rows (ofExcept x) fun _ l => l = [] :=
  of_done (fun _ => rfl) fun _ _ => rfl

theorem bind (hm : Takes rows m P)
    (hf : ∀ a l, P a l → Takes rows (f a) fun b l' => R b (l ++ l')) : Takes rows (m >>= f) R := by
  intro c s b c'' s'' hs hc hrun
  rw [bind_apply] at hrun
  obtain ⟨⟨r, c'⟩, s', hfirst, hrest⟩ := hrun.of_bind
  cases r
  case error =>
    obtain ⟨heq, -⟩ := hrest
    cases heq
  case ok a =>
    obtain ⟨hc', hs', events, hevents, hP⟩ := hm c s a c' s' hs hc hfirst
    obtain ⟨hc'', hs'', events', hevents', hR⟩ := hf a _ hP c' s' b c'' s'' hs' hc' hrest
    refine ⟨hc'', hs'', events ++ events', ?_, ?_⟩
    · rw [hevents', hevents, List.append_assoc]
    · rwa [List.flatMap_append]

-- What is done last takes nothing.
theorem bind_pure {b : α → β} (hm : Takes rows m fun a l => R (b a) l) :
    Takes rows (m >>= fun a => Pure.pure (b a)) R :=
  hm.bind fun a l h => .pure (by rwa [List.append_nil])

theorem get {f : Context → Action β} (h : ∀ c, Takes rows (f c) R) : Takes rows (get >>= f) R :=
  fun c => h c c

theorem log {level : Level} {message : String} : Takes rows (log level message) fun _ l => l = [] := by
  intro c s a c' s' hs hc hrun
  obtain ⟨heq, rfl⟩ := RunsAlone.after_log hrun
  cases heq
  exact ⟨hc, hs, [], (List.append_nil _).symm, rfl⟩

theorem probe : Takes rows (probe finder) fun _ l => l = [] := by
  intro c s a c' s' hs hc hrun
  cases probe_alone hrun
  case known => exact ⟨hc, hs, [], (List.append_nil _).symm, rfl⟩
  case found ha =>
    cases ha
    exact ⟨hc, hs, [.probe c.tx finder], rfl, rfl⟩

theorem lockFind (hrows : rows.Hierarchy) : Takes rows (lockFind kind finder) fun found l =>
    found = rows.lookup finder ∧ (l = [] ∨ kind ≠ .readCommitted ∧ l = rows.one finder) := by
  intro c s found c' s' hs hc hrun
  replace hrun := lockFind_alone hrun
  cases hrun
  case known hknown =>
    exact ⟨hc, hs, [], (List.append_nil _).symm, hc.lockedAnswer? hknown, .inl rfl⟩
  case found ha =>
    obtain ⟨-, heq⟩ | ⟨_, _, -, heq⟩ := s.find_cases c.tx kind finder
    all_goals cases heq.symm.trans ha
    subst hs
    refine ⟨hc.learnLocked hrows.namesApart, Store.asked_rows, [.find c.tx kind finder], Store.asked_events,
      rfl, ?_⟩
    rw [List.flatMap_singleton, Rows.taken]
    split
    case isTrue => exact .inl rfl
    case isFalse hk => exact .inr ⟨hk, rfl⟩

theorem lockList (hrows : rows.Hierarchy) : Takes rows (lockList kind finder) fun found l =>
    found = rows.lookupList finder ∧ (l = [] ∨ kind ≠ .readCommitted ∧ l = rows.many finder) := by
  intro c s found c' s' hs hc hrun
  replace hrun := lockList_alone hrun
  cases hrun
  case known hknown =>
    exact ⟨hc, hs, [], (List.append_nil _).symm, hc.lockedList? hknown, .inl rfl⟩
  case found ha =>
    obtain ⟨-, heq⟩ | ⟨_, _, -, heq⟩ := s.findList_cases c.tx kind finder
    all_goals cases heq.symm.trans ha
    subst hs
    refine ⟨hc.learnLockedList hrows.namesApart, Store.listed_rows, [.findList c.tx kind finder],
      Store.listed_events, rfl, ?_⟩
    rw [List.flatMap_singleton, Rows.taken]
    split
    case isTrue => exact .inl rfl
    case isFalse hk => exact .inr ⟨hk, rfl⟩

-- A loop takes what some of its rounds take, one after another.
theorem mapM {as : List α} {g : α → List (Key × Bool)}
    (hf : ∀ a ∈ as, Takes rows (f a) fun _ l => l = [] ∨ l = g a) :
    Takes rows (as.mapM f) fun _ l => ∃ rounds : List α, rounds.Sublist as ∧ l = rounds.flatMap g := by
  induction as
  case nil => exact .pure ⟨[], .refl [], rfl⟩
  case cons a as ih =>
    rw [List.mapM_cons]
    refine (hf a List.mem_cons_self).bind fun _ l hl => bind_pure ?_
    refine (ih fun a ha => hf a (List.mem_cons_of_mem _ ha)).mono ?_
    rintro _ _ ⟨rounds, hrounds, rfl⟩
    obtain rfl | rfl := hl
    · exact ⟨rounds, hrounds.cons a, rfl⟩
    · exact ⟨a :: rounds, hrounds.cons_cons a, rfl⟩

theorem forM {as : List α} {f : α → Action PUnit} (hf : ∀ a, Takes rows (f a) fun _ l => l = []) :
    Takes rows (as.forM f) fun _ l => l = [] := by
  induction as
  case nil => exact .pure rfl
  case cons a as ih => exact (hf a).bind fun _ _ hl => ih.mono fun _ _ hl' => by rw [hl, hl']; rfl

end Takes

end Action

end NamespaceService
