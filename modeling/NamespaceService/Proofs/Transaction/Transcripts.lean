import NamespaceService.Proofs.Transaction.Overlay

namespace NamespaceService

open Program

theorem Action.of_map_alone {α β : Type} {m : Action α} {give : α → β} {c c' : Context}
    {s s' : Store} {r : Except Fault β} (h : RunsAlone ((give <$> m) c) s (r, c') s') :
    ∃ r', RunsAlone (m c) s (r', c') s' ∧ r = r'.map give := by
  rw [map_eq_pure_bind, Stage.bind_apply] at h
  obtain ⟨⟨r', c₁⟩, s₁, hfirst, hrest⟩ := h.of_bind
  cases r'
  all_goals
    obtain ⟨heq, rfl⟩ := hrest
    cases heq
    exact ⟨_, hfirst, rfl⟩

-- The rows that a call of the store gives to be kept.
def Rows.given (rows : Rows) : Event → List Row
  | .find _ _ finder => (rows.lookup finder).toList
  | .findList _ _ finder => rows.lookupList finder
  | _ => []

namespace Session

namespace ContextStep

variable {step : ContextStep} {c : Context}

-- A single lookup.
def finds : ContextStep → Bool
  | .lockFind .. | .lockList .. | .probe _ | .find _ | .findList _ => true
  | _ => false

-- The call of the store that a lookup makes where the context has no answer.
def call? (tx : TxId) : ContextStep → Option Event
  | .lockFind kind finder => some (.find tx kind finder)
  | .lockList kind finder => some (.findList tx kind finder)
  | .probe finder => some (.probe tx finder)
  | .find finder => some (.find tx .readCommitted finder)
  | .findList finder => some (.findList tx .readCommitted finder)
  | _ => none

-- The answer that the context has.
def known? (c : Context) : ContextStep → Option Reply
  | .lockFind kind finder => (c.lockedAnswer? kind finder).map .row
  | .lockList kind finder => (c.lockedList? kind finder).map .rows
  | .probe finder => (c.knownSingle? finder).map .row
  | .find finder => (c.knownAnswer? finder).map .row
  | .findList finder => (c.knownList? finder).map .rows
  | _ => none

-- What the context makes of the answer that the rows give.
def learn (rows : Rows) (c : Context) : ContextStep → Context
  | .lockFind kind finder => c.learnLocked kind finder (rows.lookup finder)
  | .lockList kind finder => c.learnLockedList kind finder (rows.lookupList finder)
  | .find finder => c.learn finder (rows.lookup finder)
  | .findList finder => c.learnList finder (rows.lookupList finder)
  | _ => c

-- What a change, or the end of the lock phase, makes of the context.
def written (c : Context) : ContextStep → Context
  | .upsert row => c.upsert row
  | .remove key => c.remove key
  | .endLockPhase => c.endLockPhase
  | _ => c

theorem looks_of_finds (h : step.finds) : step.looks := by
  cases step <;> first | rfl | cases h

theorem looks_plain (h : step.looks) : (step.run c).Only Request.Plain :=
  (reading h).straight.reads.plain c

end ContextStep

-- A step, the world it is taken in, what comes of it, and the world after it.
structure Entry where
  step : ContextStep
  before : World
  reply : Except Fault Reply
  after : World

namespace Entry

def rows (x : Entry) : Rows :=
  x.before.store.rows

-- The calls of the store that were answered.
def asked (x : Entry) : List Event :=
  x.after.store.events.drop x.before.store.events.length

def given (x : Entry) : List Row :=
  x.asked.flatMap x.rows.given

-- What was found.
def row? (x : Entry) : Option (Option Row) :=
  match x.reply with
  | .ok (.row found) => some found
  | _ => none

def rows? (x : Entry) : Option (List Row) :=
  match x.reply with
  | .ok (.rows found) => some found
  | _ => none

variable {x : Entry} {c c' : Context}

theorem row?_eq_some_iff {found : Option Row} : x.row? = some found ↔ x.reply = .ok (.row found) := by
  rw [row?]
  split <;> simp_all

theorem rows?_eq_some_iff {found : List Row} : x.rows? = some found ↔ x.reply = .ok (.rows found) := by
  rw [rows?]
  split <;> simp_all

-- What a single lookup can come to.
inductive Comes (x : Entry) (c : Context) : Context → Prop
  | known {reply : Reply} (h : x.step.known? c = some reply) (hreply : x.reply = .ok reply)
    (hevents : x.after.store.events = x.before.store.events) : x.Comes c c
  | failed {fault : Fault} (h : x.step.known? c = none) (hreply : x.reply = .error fault)
    (hevents : x.after.store.events = x.before.store.events) : x.Comes c c
  | answered {event : Event} {reply : Reply} (h : x.step.known? c = none) (ho : c.sealed = false)
    (hcall : x.step.call? c.tx = some event) (hdirect : x.step.direct? x.rows = some reply)
    (hreply : x.reply = .ok reply)
    (hevents : x.after.store.events = x.before.store.events ++ [event]) :
    x.Comes c (x.step.learn x.rows c)

-- The call is answered and recorded, or it meets a fault.
def Serves (s : Store) {α : Type} (event : Event) (found : α) (r : Except Fault α × Store) : Prop :=
  r.1 = .ok found ∧ r.2.events = s.events ++ [event] ∨
    ∃ fault, r.1 = .error fault ∧ r.2.events = s.events

theorem find_serves {s : Store} {tx : TxId} {kind : LockKind} {finder : Finder} :
    Serves s (.find tx kind finder) (s.rows.lookup finder) (s.find tx kind finder) := by
  obtain ⟨-, heq⟩ | ⟨fault, _, -, heq⟩ := s.find_cases tx kind finder
  all_goals rw [heq]
  · exact .inl ⟨rfl, Store.asked_events⟩
  · exact .inr ⟨fault, rfl, rfl⟩

theorem findList_serves {s : Store} {tx : TxId} {kind : LockKind} {finder : Finder} :
    Serves s (.findList tx kind finder) (s.rows.lookupList finder) (s.findList tx kind finder) := by
  obtain ⟨-, heq⟩ | ⟨fault, _, -, heq⟩ := s.findList_cases tx kind finder
  all_goals rw [heq]
  · exact .inl ⟨rfl, Store.listed_events⟩
  · exact .inr ⟨fault, rfl, rfl⟩

theorem comes_of_read {α : Type} {finder : Finder} {known : Context → Option α}
    {answer : Store → Except Fault α × Store} {learn : Context → α → Context} {r : Except Fault α}
    {give : α → Reply} {event : Event} {found : α}
    (h : Action.ReadAlone finder known answer learn c x.before.store r c' x.after.store)
    (hreply : x.reply = r.map give) (hknown : x.step.known? c = (known c).map give)
    (hanswer : Serves x.before.store event found (answer x.before.store))
    (hcall : x.step.call? c.tx = some event) (hdirect : x.step.direct? x.rows = some (give found))
    (hlearn : learn c found = x.step.learn x.rows c) : x.Comes c c' := by
  generalize hafter : x.after.store = s' at h
  cases h
  case known a ha =>
    exact .known (by rw [hknown, ha, Option.map_some]) hreply (by rw [hafter])
  case prevented hunknown _ =>
    exact .failed (by rw [hknown, hunknown, Option.map_none]) hreply (by rw [hafter])
  case found a hunknown ho ha =>
    rw [ha] at hanswer
    obtain ⟨hok, hevents⟩ | ⟨_, herror, -⟩ := hanswer
    · cases hok
      rw [hlearn]
      exact .answered (by rw [hknown, hunknown, Option.map_none]) ho hcall hdirect hreply
        (hafter ▸ hevents)
    · cases herror
  case failed fault hunknown _ ha =>
    rw [ha] at hanswer
    obtain ⟨hok, -⟩ | ⟨_, -, hevents⟩ := hanswer
    · cases hok
    · exact .failed (by rw [hknown, hunknown, Option.map_none]) hreply (hafter ▸ hevents)

theorem comes (hfinds : x.step.finds)
    (hrun : (x.step.run c).run x.before = some ((x.reply, c'), x.after)) : x.Comes c c' := by
  have halone := RunsAlone.of_run (ContextStep.looks_plain (ContextStep.looks_of_finds hfinds)) hrun
  obtain ⟨step, w, reply, w'⟩ := x
  cases step
  case lockFind =>
    obtain ⟨r, hread, hreply⟩ := Action.of_map_alone halone
    exact comes_of_read (Action.lockFind_alone hread) hreply rfl find_serves rfl rfl rfl
  case lockList =>
    obtain ⟨r, hread, hreply⟩ := Action.of_map_alone halone
    exact comes_of_read (Action.lockList_alone hread) hreply rfl findList_serves rfl rfl rfl
  case probe =>
    obtain ⟨r, hread, hreply⟩ := Action.of_map_alone halone
    exact comes_of_read (Action.probe_alone hread) hreply rfl (.inl ⟨rfl, rfl⟩) rfl rfl rfl
  case find =>
    obtain ⟨r, hread, hreply⟩ := Action.of_map_alone halone
    exact comes_of_read (Action.find_alone hread) hreply rfl find_serves rfl rfl rfl
  case findList =>
    obtain ⟨r, hread, hreply⟩ := Action.of_map_alone halone
    exact comes_of_read (Action.findList_alone hread) hreply rfl findList_serves rfl rfl rfl
  all_goals cases hfinds

theorem asked_of_events {events : List Event}
    (h : x.after.store.events = x.before.store.events ++ events) : x.asked = events := by
  rw [asked, h, List.drop_left]

theorem asked_nil (h : x.after.store.events = x.before.store.events) : x.asked = [] := by
  rw [asked, h, List.drop_length]

theorem Comes.events_eq (h : x.Comes c c') :
    x.after.store.events = x.before.store.events ++ x.asked := by
  cases h
  case known hevents => rw [asked_nil hevents, hevents, List.append_nil]
  case failed hevents => rw [asked_nil hevents, hevents, List.append_nil]
  case answered hevents => rw [asked_of_events hevents, hevents]

-- Changes are made in the context alone.
theorem eq_written (h : x.step.edits ∨ x.step = .endLockPhase)
    (hrun : (x.step.run c).run x.before = some ((x.reply, c'), x.after)) :
    c' = x.step.written c ∧ x.reply = .ok .done ∧ x.asked = [] := by
  obtain ⟨step, w, reply, w'⟩ := x
  cases step
  case upsert | remove | endLockPhase =>
    cases hrun
    exact ⟨rfl, rfl, asked_nil rfl⟩
  all_goals simp [ContextStep.edits] at h

end Entry

-- The steps that lead from one context to another.
inductive Transcript : Context → List Entry → Context → Prop
  | nil {c : Context} : Transcript c [] c
  | cons {c c₁ c' : Context} {x : Entry} {xs : List Entry}
    (hrun : (x.step.run c).run x.before = some ((x.reply, c₁), x.after))
    (h : Transcript c₁ xs c') : Transcript c (x :: xs) c'

namespace Transcript

variable {c c' c'' : Context} {xs ys : List Entry}

theorem append (h : Transcript c xs c') (h' : Transcript c' ys c'') :
    Transcript c (xs ++ ys) c'' := by
  induction h
  case nil => exact h'
  case cons hrun _ ih => exact .cons hrun (ih h')

theorem of_append (h : Transcript c (xs ++ ys) c'') :
    ∃ c', Transcript c xs c' ∧ Transcript c' ys c'' := by
  induction xs generalizing c
  case nil => exact ⟨c, .nil, h⟩
  case cons x xs ih =>
    cases h
    case cons hrun h =>
      obtain ⟨c', hbefore, hafter⟩ := ih h
      exact ⟨c', .cons hrun hbefore, hafter⟩

end Transcript

-- Takes the steps one after another, each in the world that the one before it left.
def transcribe : List ContextStep → Context → World → Option (List Entry × Context)
  | [], c, _ => some ([], c)
  | step :: steps, c, w =>
    ((step.run c).run w).bind fun ((reply, c'), w') =>
      (transcribe steps c' w').map fun (xs, c'') => (⟨step, w, reply, w'⟩ :: xs, c'')

theorem Transcript.of_transcribe {steps : List ContextStep} {c c' : Context} {w : World}
    {xs : List Entry} (h : transcribe steps c w = some (xs, c')) :
    Transcript c xs c' ∧ xs.map Entry.step = steps := by
  induction steps generalizing c w xs
  case nil =>
    cases h
    exact ⟨.nil, rfl⟩
  case cons step steps ih =>
    obtain ⟨⟨⟨reply, c₁⟩, w₁⟩, hrun, hrest⟩ := Option.bind_eq_some_iff.mp h
    obtain ⟨⟨ys, c₂⟩, hys, heq⟩ := Option.map_eq_some_iff.mp hrest
    cases heq
    obtain ⟨hlater, hsteps⟩ := ih hys
    exact ⟨.cons hrun hlater, congrArg (step :: ·) hsteps⟩

-- A transcript that passes the check is one that can be had.
theorem Transcript.exists_checked (steps : List ContextStep) (c : Context) (w : World)
    (check : List Entry → Context → Bool)
    (h : (transcribe steps c w).any fun (xs, c') => check xs c') :
    ∃ xs c', Transcript c xs c' ∧ xs.map Entry.step = steps ∧ check xs c' := by
  obtain ⟨⟨xs, c'⟩, htranscribe, hcheck⟩ := (Option.any_eq_true ..).mp h
  obtain ⟨htranscript, hsteps⟩ := of_transcribe htranscribe
  exact ⟨xs, c', htranscript, hsteps, hcheck⟩

theorem exists_pair {xs : List Entry} {first second : ContextStep}
    (h : xs.map Entry.step = [first, second]) :
    ∃ x y, xs = [x, y] ∧ x.step = first ∧ y.step = second := by
  obtain ⟨x, y, rfl⟩ := List.length_eq_two.mp ((xs.length_map Entry.step).symm.trans (by rw [h]; rfl))
  simpa using h

-- Single lookups in the rows of a store, and what was asked of it between them.
structure Singly (c : Context) (s : Store) (xs : List Entry) (c' : Context) (s' : Store) : Prop where
  transcript : Transcript c xs c'
  finds : ∀ x ∈ xs, x.step.finds
  rows : ∀ x ∈ xs, x.rows = s.rows
  events : s'.events = s.events ++ xs.flatMap Entry.asked

namespace Singly

variable {c c' c'' : Context} {s s' s'' : Store} {xs ys : List Entry}

theorem nil : Singly c s [] c s where
  transcript := .nil
  finds := by simp
  rows := by simp
  events := (List.append_nil _).symm

theorem append (h : Singly c s xs c' s') (h' : Singly c' s' ys c'' s'') (hrows : s'.rows = s.rows) :
    Singly c s (xs ++ ys) c'' s'' where
  transcript := h.transcript.append h'.transcript
  finds x hx := (List.mem_append.mp hx).elim (h.finds x) (h'.finds x)
  rows x hx := (List.mem_append.mp hx).elim (h.rows x) fun hy => (h'.rows x hy).trans hrows
  events := by rw [h'.events, h.events, List.flatMap_append, List.append_assoc]

theorem single {α : Type} (step : ContextStep) {m : Action α} {give : α → Reply} {r : Except Fault α}
    (hfinds : step.finds) (hstep : step.run = give <$> m) (hrun : (m c).RunsAlone s (r, c') s') :
    ∃ xs, Singly c s xs c' s' := by
  have hgive : (step.run c).RunsAlone s (r.map give, c') s' := by
    rw [hstep, map_eq_pure_bind, Stage.bind_apply]
    refine hrun.bind ?_
    cases r <;> exact .done
  obtain ⟨w', hworld, rfl⟩ := RunsAlone.run (w := { store := s }) hgive
  let x : Entry := ⟨step, { store := s }, r.map give, w'⟩
  have hcomes : x.Comes c c' := Entry.comes hfinds hworld
  refine ⟨[x], .cons hworld .nil, ?_, ?_, ?_⟩
  · simpa using hfinds
  · simp [x, Entry.rows]
  · simpa using hcomes.events_eq

theorem bind {α β : Type} {m : Action α} {f : α → Action β} {r : Except Fault β} (hm : Stage.Straight m)
    (hfirst : ∀ r c₁ s₁, (m c).RunsAlone s (r, c₁) s₁ → ∃ xs, Singly c s xs c₁ s₁)
    (hrest : ∀ a c₁ s₁, (f a c₁).RunsAlone s₁ (r, c') s' → ∃ xs, Singly c₁ s₁ xs c' s')
    (hrun : ((m >>= f) c).RunsAlone s (r, c') s') : ∃ xs, Singly c s xs c' s' := by
  rw [Stage.bind_apply] at hrun
  obtain ⟨⟨r₁, c₁⟩, s₁, hm₁, hf₁⟩ := hrun.of_bind
  obtain ⟨xs, hxs⟩ := hfirst r₁ c₁ s₁ hm₁
  cases r₁
  case error =>
    obtain ⟨heq, rfl⟩ := hf₁
    cases heq
    exact ⟨xs, hxs⟩
  case ok a =>
    obtain ⟨ys, hys⟩ := hrest a c₁ s₁ hf₁
    exact ⟨xs ++ ys, hxs.append hys ((hm.reads c).same hm₁).1⟩

-- Looking rows up and taking locks is done by single lookups.
theorem of_reading {α : Type} {m : Action α} {r : Except Fault α} (h : Reading m)
    (hrun : (m c).RunsAlone s (r, c') s') : ∃ xs, Singly c s xs c' s' := by
  induction h generalizing c s c' s'
  case pure | throw =>
    obtain ⟨heq, rfl⟩ := hrun
    cases heq
    exact ⟨[], .nil⟩
  case bind hm _ ihm ihf => exact bind hm.straight (fun _ _ _ => ihm) (fun a _ _ => ihf a) hrun
  case log =>
    obtain ⟨heq, rfl⟩ := RunsAlone.after_log hrun
    cases heq
    exact ⟨[], .nil⟩
  case lockFind kind finder => exact single (.lockFind kind finder) rfl rfl hrun
  case lockList kind finder => exact single (.lockList kind finder) rfl rfl hrun
  case probe finder => exact single (.probe finder) rfl rfl hrun
  case find finder => exact single (.find finder) rfl rfl hrun
  case findList finder => exact single (.findList finder) rfl rfl hrun
  case lockListAlike key finder f _ ihf =>
    have hlist {kind : LockKind} (r₁ : Except Fault (List Row)) (c₁ : Context) (s₁ : Store) :
        (Action.lockList kind finder c).RunsAlone s (r₁, c₁) s₁ → ∃ xs, Singly c s xs c₁ s₁ :=
      single (.lockList kind finder) rfl rfl
    exact bind .lockList hlist (fun found _ _ => ihf found) hrun

end Singly

namespace Entry

variable {x : Entry} {ys : List Entry} {c c' : Context}

-- All ways to take locks are made of single lookups.
theorem exists_singly (h : x.step.looks)
    (hrun : (x.step.run c).run x.before = some ((x.reply, c'), x.after)) :
    ∃ ys, Singly c x.before.store ys c' x.after.store :=
  Singly.of_reading (ContextStep.reading h) (RunsAlone.of_run (ContextStep.looks_plain h) hrun)

theorem given_eq (h : Singly c x.before.store ys c' x.after.store) :
    x.given = ys.flatMap Entry.given := by
  rw [given, asked_of_events h.events, List.flatMap_assoc]
  refine List.flatMap_congr fun y hy => ?_
  rw [given, h.rows y hy, rows]

end Entry

end Session

end NamespaceService
