import Mathlib.Data.List.Nodup
import NamespaceService.Proofs.Concurrency.Crew
import NamespaceService.Proofs.Concurrency.Setbacks

namespace NamespaceService

inductive Move (ι : Type)
  | turn (i : ι)
  | fault (operation : Operation) (fault : Fault)

namespace Crew

variable {ι α : Type} [DecidableEq ι] {crew : Crew ι α} {moves : List (Move ι)} {i j : ι} {n m : Nat}

def move (crew : Crew ι α) : Move ι → Crew ι α
  | .turn i => crew.step i
  | .fault operation fault =>
    { crew with world.store := crew.world.store.inject operation fault }

def play (crew : Crew ι α) (moves : List (Move ι)) : Crew ι α :=
  moves.foldl move crew

-- The crew after `n` moves.
def past (crew : Crew ι α) (moves : List (Move ι)) (n : Nat) : Crew ι α :=
  crew.play (moves.take n)

-- Whose commit is accepted by this move.
def commits? (crew : Crew ι α) : Move ι → Option ι
  | .turn i =>
    match crew.program i with
    | .ask (.store (.commit tx changes)) _ =>
      match (crew.world.store.commit tx changes).1 with
      | .ok () => some i
      | .error _ => none
    | _ => none
  | .fault .. => none

def committer? (crew : Crew ι α) (moves : List (Move ι)) (n : Nat) : Option ι :=
  moves[n]?.bind (crew.past moves n).commits?

-- The members whose commits are accepted in the first `n` moves, in the order of the commits.
def orderBefore (crew : Crew ι α) (moves : List (Move ι)) (n : Nat) : List ι :=
  (List.range n).filterMap (crew.committer? moves)

def order (crew : Crew ι α) (moves : List (Move ι)) : List ι :=
  crew.orderBefore moves moves.length

-- What the member asks for is answered with a fault.
def setBack (crew : Crew ι α) (i : ι) : Bool :=
  match crew.program i with
  | .ask (.store call) _ => call.faulted (crew.world.store.answer call).1
  | _ => false

theorem past_length : crew.past moves moves.length = crew.play moves := by
  rw [past, List.take_length]

theorem past_succ {move : Move ι} (h : moves[n]? = some move) :
    crew.past moves (n + 1) = (crew.past moves n).move move := by
  rw [past, past, List.take_add_one, h, play, List.foldl_append]
  rfl

theorem past_of_none (h : moves[n]? = none) : crew.past moves (n + 1) = crew.past moves n := by
  have hle := List.getElem?_eq_none_iff.mp h
  rw [past, past, List.take_of_length_le hle, List.take_of_length_le (by omega)]

-- Nobody has to wait, and but for the queue the store is coherent.
structure Ready (crew : Crew ι α) : Prop where
  plain (i : ι) : (crew.program i).Only Request.Plain
  coherent : crew.world.store.quieted.Coherent

theorem Ready.step_ask (h : crew.Ready) {r : Request} {next : r.Response → Program α}
    (hp : crew.program i = .ask r next) : ∃ x,
      (∀ j, (crew.step i).program j = if j = i then next x else crew.program j) ∧
      r.faulted x = crew.setBack i ∧
      (crew.setBack i = true ∧ (crew.step i).world.store.quieted = crew.world.store.quieted ∨
        crew.setBack i = false ∧
          World.Serves crew.world.store.quieted (crew.step i).world.store.quieted r x) := by
  have hplain := h.plain i
  rw [hp] at hplain
  have ⟨x, w, hw, hserves⟩ := crew.world.perform_plain hplain.1
  have hstep : crew.step i = ⟨w, fun j => if j = i then next x else crew.program j⟩ := by
    simp only [step, hp, hw]
  rw [hstep]
  refine ⟨x, fun _ => rfl, ?_⟩
  cases r
  case store call =>
    have hserves : crew.world.store.answer call = (x, w.store) := hserves
    have hback : crew.setBack i = call.faulted x := by
      simp only [setBack, hp, hserves]
    have hcases := crew.world.store.answer_quieted call
    rw [hserves] at hcases
    rw [hback]
    exact ⟨rfl, hcases⟩
  case log | report =>
    have hback : crew.setBack i = false := by simp only [setBack, hp]
    exact ⟨hback.symm, .inr ⟨hback, congrArg Store.quieted hserves⟩⟩
  all_goals cases hserves

theorem Ready.step (h : crew.Ready) (i : ι) :
    crew.world.store.quieted.Next (crew.step i).world.store.quieted ∧ (crew.step i).Ready := by
  cases hp : crew.program i
  case done =>
    rw [step_done hp]
    exact ⟨.inl rfl, h⟩
  case ask r next =>
    obtain ⟨x, hprogram, -, hstore⟩ := h.step_ask hp
    have hnext : crew.world.store.quieted.Next (crew.step i).world.store.quieted :=
      hstore.elim (fun h => .inl h.2) fun h => h.2.next
    refine ⟨hnext, fun j => ?_, ?_⟩
    · rw [hprogram]
      have hplain := h.plain i
      rw [hp] at hplain
      split
      case isTrue => exact hplain.2 x
      case isFalse => exact h.plain j
    · obtain hs | ⟨call, hs⟩ := hnext
      · exact hs ▸ h.coherent
      · exact hs ▸ (h.coherent.answer call).2

theorem Ready.move (h : crew.Ready) (move : Move ι) :
    crew.world.store.quieted.Next (crew.move move).world.store.quieted ∧ (crew.move move).Ready := by
  cases move
  case turn i => exact h.step i
  case fault => exact ⟨.inl rfl, h.plain, h.coherent⟩

theorem Ready.past (h : crew.Ready) (n : Nat) : (crew.past moves n).Ready := by
  induction n
  case zero => exact h
  case succ n ih =>
    cases hmove : moves[n]?
    case none => exact past_of_none hmove ▸ ih
    case some move => exact past_succ hmove ▸ (ih.move move).2

def SetBackAt (crew : Crew ι α) (moves : List (Move ι)) (i : ι) (n : Nat) : Prop :=
  moves[n]? = some (.turn i) ∧ (crew.past moves n).setBack i

-- The play as one of the members sees it. When it is over, the member may still log and report.
def view (h : crew.Ready) (moves : List (Move ι)) (i : ι) : Timeline where
  store n := (crew.past moves n).world.store.quieted
  turn n :=
    match moves[n]? with
    | some (.turn j) =>
      if j = i ∧ ¬(crew.past moves n).setBack i then (crew.past moves n).turn i else .other
    | some (.fault ..) => .other
    | none => .silent
  start := h.coherent
  next n := by
    cases hmove : moves[n]?
    case none => exact .inl (by rw [past_of_none hmove])
    case some move =>
      rw [past_succ hmove]
      exact ((h.past n).move move).1

variable {h : crew.Ready}

theorem view_turn (hmove : moves[n]? = some (.turn i)) (hclear : (crew.past moves n).setBack i = false) :
    (view h moves i).turn n = (crew.past moves n).turn i := by
  simp [view, hmove, hclear]

-- In a move that is not its turn, nothing comes from the member.
theorem view_other {move : Move ι} (hmove : moves[n]? = some move) (hne : move ≠ .turn i) :
    (view h moves i).turn n = .other ∧
      (crew.past moves (n + 1)).program i = (crew.past moves n).program i := by
  rw [past_succ hmove]
  cases move
  case fault => exact ⟨by simp only [view, hmove], rfl⟩
  case turn j =>
    have hj : j ≠ i := fun heq => hne (heq ▸ rfl)
    exact ⟨by simp [view, hmove, hj], step_program_of_ne hj.symm⟩

-- But for the faults it meets, the member's program runs along its view.
theorem view_follows (hn : n < moves.length) (hclear : ¬crew.SetBackAt moves i n) :
    Program.Follows (view h moves i) (fun n => (crew.past moves n).program i) n := by
  have hmove : moves[n]? = some moves[n] := List.getElem?_eq_getElem hn
  by_cases heq : moves[n] = .turn i
  case neg => exact .inl (view_other hmove heq)
  case pos =>
    rw [heq] at hmove
    have hback : (crew.past moves n).setBack i = false := by
      simpa [SetBackAt, hmove] using hclear
    have hturn := view_turn (h := h) hmove hback
    have hpast : crew.past moves (n + 1) = (crew.past moves n).move (.turn i) := past_succ hmove
    cases hp : (crew.past moves n).program i
    case done a =>
      refine .inl ⟨by rw [hturn, turn, hp], ?_⟩
      simp only [hpast]
      rw [move, step_done hp]
    case ask r next =>
      obtain ⟨x, hprogram, -, hstore⟩ := (h.past n).step_ask hp
      obtain ⟨-, hserves⟩ := hstore.resolve_left fun hset => by simp [hback] at hset
      refine .inr ⟨r, next, x, hp, ?_, by simp only [hpast]; exact (hprogram i).trans (if_pos rfl)⟩
      have hnext : (view h moves i).store (n + 1) =
          ((crew.past moves n).step i).world.store.quieted :=
        congrArg (·.world.store.quieted) hpast
      cases r
      case store call => exact ⟨by rw [hturn, turn, hp], hnext ▸ hserves⟩
      case log => exact ⟨by rw [hturn, turn, hp], hnext.trans hserves⟩
      case report => exact ⟨by rw [hturn, turn, hp], hnext.trans hserves⟩
      all_goals exact hserves.elim

theorem program_of_setBack (h : crew.Ready) (hback : crew.SetBackAt moves i n) :
    ∃ r next x, (crew.past moves n).program i = .ask r next ∧ r.faulted x ∧
      (crew.past moves (n + 1)).program i = next x := by
  obtain ⟨hmove, hback⟩ := hback
  cases hp : (crew.past moves n).program i
  case done a => simp [setBack, hp] at hback
  case ask r next =>
    obtain ⟨x, hprogram, hfaulted, -⟩ := (h.past n).step_ask hp
    refine ⟨r, next, x, rfl, hfaulted.trans hback, ?_⟩
    rw [past_succ hmove]
    exact (hprogram i).trans (if_pos rfl)

-- A call that the member sees made is the one that it asks for, answered in the same way.
theorem exists_ask_of_call {call : Store.Call} (hturn : (view h moves i).turn n = .call call) :
    moves[n]? = some (.turn i) ∧ (∃ next, (crew.past moves n).program i = .ask (.store call) next) ∧
      (view h moves i).Answers n (.store call) ((crew.past moves n).world.store.answer call).1 := by
  cases hmove : moves[n]?
  case none => simp [view, hmove] at hturn
  case some move =>
    have hn : n < moves.length := (List.getElem?_eq_some_iff.mp hmove).1
    have hmine : move = .turn i := by
      by_contra hne
      cases (view_other hmove hne).1.symm.trans hturn
    subst hmine
    have hback : ¬crew.SetBackAt moves i n := by
      rintro ⟨-, hback⟩
      simp [view, hmove, hback] at hturn
    obtain ⟨hother, -⟩ | ⟨r, next, x, hp, hx, -⟩ := view_follows (h := h) hn hback
    · cases hother.symm.trans hturn
    · cases r
      case store call' =>
        cases hx.1.symm.trans hturn
        have hclear : call.faulted ((crew.past moves n).world.store.answer call).1 = false := by
          simpa [SetBackAt, hmove, setBack, hp] using hback
        have heq := (crew.past moves n).world.store.answer_quieted call
        have heq := (heq.resolve_left fun hfault => by simp [hclear] at hfault).2
        have hsame : x = ((crew.past moves n).world.store.answer call).1 :=
          congrArg Prod.fst (hx.2.symm.trans heq)
        exact ⟨rfl, ⟨next, hp⟩, hsame ▸ hx⟩
      case log | report => cases hx.1.symm.trans hturn
      all_goals cases hx

-- An accepted commit is one that the member sees accepted.
theorem committer?_eq_some_iff (h : crew.Ready) : crew.committer? moves n = some i ↔
    ∃ tx changes, (view h moves i).Answers n (.store (.commit tx changes)) (.ok ()) := by
  constructor
  case mp =>
    intro hc
    obtain ⟨move, hmove, hc⟩ := Option.bind_eq_some_iff.mp hc
    cases move
    case fault => cases hc
    case turn j =>
      simp only [commits?] at hc
      split at hc
      case h_2 => cases hc
      case h_1 tx changes next hp =>
        split at hc
        case h_2 => cases hc
        case h_1 hok =>
          obtain rfl : j = i := Option.some.inj hc
          have hback : (crew.past moves n).setBack j = false := by
            rw [setBack, hp]
            exact congrArg (Store.Call.faulted (.commit tx changes)) hok
          have hturn : (view h moves j).turn n = .call (.commit tx changes) := by
            rw [view_turn hmove hback, turn, hp]
          obtain ⟨-, -, hx⟩ := exists_ask_of_call hturn
          exact ⟨tx, changes, hok ▸ hx⟩
  case mpr =>
    rintro ⟨tx, changes, hok⟩
    obtain ⟨hmove, ⟨next, hp⟩, hx⟩ := exists_ask_of_call hok.1
    have hok : ((crew.past moves n).world.store.commit tx changes).1 = .ok () := hx.unique hok
    simp only [committer?, hmove, Option.bind_some, commits?, hp, hok]

-- What a move can be for a member.
inductive Passes (crew : Crew ι α) (moves : List (Move ι)) (i : ι) (n : Nat) : Prop
  | idle (same : (crew.past moves (n + 1)).program i = (crew.past moves n).program i)
      (clear : ¬crew.SetBackAt moves i n) (uncommitted : crew.committer? moves n ≠ some i) :
    Passes crew moves i n
  | setBack {r : Request} {next : r.Response → Program α} {x : r.Response}
      (asks : (crew.past moves n).program i = .ask r next) (faulted : r.faulted x)
      (left : (crew.past moves (n + 1)).program i = next x)
      (uncommitted : crew.committer? moves n ≠ some i) :
    Passes crew moves i n
  | served {r : Request} {next : r.Response → Program α} {x : r.Response}
      (asks : (crew.past moves n).program i = .ask r next)
      (left : (crew.past moves (n + 1)).program i = next x)
      (clear : ¬crew.SetBackAt moves i n) (uncommitted : crew.committer? moves n ≠ some i) :
    Passes crew moves i n
  | committed {tx : TxId} {changes : List Change} {next : Except CommitRefusal Unit → Program α}
      (asks : (crew.past moves n).program i = .ask (.store (.commit tx changes)) next)
      (left : (crew.past moves (n + 1)).program i = next (.ok ()))
      (clear : ¬crew.SetBackAt moves i n) (commits : crew.committer? moves n = some i) :
    Passes crew moves i n

theorem Ready.passes (h : crew.Ready) (hn : n < moves.length) (i : ι) : crew.Passes moves i n := by
  by_cases hback : crew.SetBackAt moves i n
  case pos =>
    obtain ⟨r, next, x, hp, hx, hleft⟩ := program_of_setBack h hback
    refine .setBack hp hx hleft fun hc => ?_
    obtain ⟨tx, changes, hok⟩ := (committer?_eq_some_iff h).mp hc
    exact hok.turn_ne (by simp [view, hback.1, hback.2])
  case neg =>
    obtain ⟨hother, hsame⟩ | ⟨r, next, x, hp, hx, hleft⟩ := view_follows (h := h) hn hback
    · refine .idle hsame hback fun hc => ?_
      obtain ⟨tx, changes, hok⟩ := (committer?_eq_some_iff h).mp hc
      exact hok.turn_ne hother
    · by_cases hc : crew.committer? moves n = some i
      case neg => exact .served hp hleft hback hc
      case pos =>
        obtain ⟨tx, changes, hok⟩ := (committer?_eq_some_iff h).mp hc
        obtain ⟨-, ⟨next', hp'⟩, -⟩ := exists_ask_of_call hok.1
        cases hp.symm.trans hp'
        cases hx.unique hok
        exact .committed hp hleft hback hc

-- Rows change in a move in which a commit is accepted.
theorem Ready.rows_succ (h : crew.Ready) (hc : crew.committer? moves n = none) :
    (crew.past moves (n + 1)).world.store.rows = (crew.past moves n).world.store.rows := by
  cases hmove : moves[n]?
  case none => rw [past_of_none hmove]
  case some move =>
    rw [past_succ hmove]
    cases move
    case fault => rfl
    case turn i =>
      rw [committer?, hmove, Option.bind_some, commits?] at hc
      change ((crew.past moves n).step i).world.store.rows = _
      cases hp : (crew.past moves n).program i
      case done => rw [step_done hp]
      case ask r next =>
        have hplain : ((crew.past moves n).program i).Only Request.Plain := (h.past n).plain i
        rw [hp] at hplain hc
        cases r
        case store call =>
          have hstep : ((crew.past moves n).step i).world.store =
              ((crew.past moves n).world.store.answer call).2 := by
            simp only [Crew.step, hp, World.perform]
          rw [hstep]
          obtain ⟨hrows, -⟩ | ⟨tx, changes, rfl, hok⟩ :=
            (crew.past moves n).world.store.answer_same call
          · exact hrows
          · simp [hok] at hc
        case log | report => simp only [Crew.step, hp, World.perform]
        all_goals exact hplain.1.elim

theorem orderBefore_succ :
    crew.orderBefore moves (n + 1) = crew.orderBefore moves n ++ (crew.committer? moves n).toList := by
  rw [orderBefore, List.range_succ, List.filterMap_append, List.filterMap_cons]
  cases crew.committer? moves n <;> rfl

theorem mem_order_iff : i ∈ crew.order moves ↔ ∃ m, crew.committer? moves m = some i := by
  rw [order, orderBefore, List.mem_filterMap]
  constructor
  case mp => exact fun ⟨m, _, hc⟩ => ⟨m, hc⟩
  case mpr =>
    rintro ⟨m, hc⟩
    obtain ⟨_, hmove, -⟩ := Option.bind_eq_some_iff.mp hc
    exact ⟨m, List.mem_range.mpr (List.getElem?_eq_some_iff.mp hmove).1, hc⟩

theorem order_nodup
    (h : ∀ {i m n}, crew.committer? moves m = some i → crew.committer? moves n = some i → m = n) :
    (crew.order moves).Nodup :=
  List.Nodup.filterMap (fun _ _ _ => h) List.nodup_range

-- The members of one kind that come before some member are those that have committed before it.
theorem exists_of_filter_orderBefore {P : ι → Bool} {k : Nat}
    (h : ((crew.orderBefore moves n).filter P)[k]? = some i) :
    P i ∧ ∃ m, crew.committer? moves m = some i ∧ (crew.orderBefore moves m).countP P = k := by
  induction n
  case zero => cases h
  case succ n ih =>
    rw [orderBefore_succ, List.filter_append, List.getElem?_append] at h
    split at h
    case isTrue => exact ih h
    case isFalse hle =>
      cases hc : crew.committer? moves n
      case none => simp [hc] at h
      case some j =>
        rw [hc, Option.toList_some] at h
        cases hj : P j
        case false => simp [hj] at h
        case true =>
          rw [List.filter_cons_of_pos hj, List.filter_nil] at h
          obtain ⟨hk, hi⟩ := List.getElem?_eq_some_iff.mp h
          rw [List.length_singleton] at hk
          obtain rfl : j = i := by simpa using hi
          refine ⟨hj, n, hc, ?_⟩
          rw [List.countP_eq_length_filter]
          omega

-- After a fault, such a program comes back to one of its kind, or ends badly without a commit. Once a
-- commit is accepted, it ends well.
structure Restarts (Fresh : Program α → Prop) (Good : α → Prop) : Prop where
  falters {p : Program α} : Fresh p → p.Falters (Program.Returns Fresh fun a => ¬Good a)
  commitsLast {p : Program α} : Fresh p → p.CommitsLast Good

-- Where a member stands after `n` moves: it has met no fault since its last fresh start, is on its
-- way to the next one, or has committed and only ends.
inductive Stands (crew : Crew ι α) (moves : List (Move ι)) (i : ι) (Fresh : Program α → Prop)
    (Good : α → Prop) (n : Nat) : Prop
  | working {t : Nat} (le : t ≤ n) (fresh : Fresh ((crew.past moves t).program i))
      (clear : ∀ k, t ≤ k → k < n → ¬crew.SetBackAt moves i k)
      (falters : ((crew.past moves n).program i).Falters (Program.Returns Fresh fun a => ¬Good a))
      (commitsLast : ((crew.past moves n).program i).CommitsLast Good)
      (uncommitted : ∀ k < n, crew.committer? moves k ≠ some i) :
    Stands crew moves i Fresh Good n
  | returning (returns : ((crew.past moves n).program i).Returns Fresh fun a => ¬Good a)
      (uncommitted : ∀ k < n, crew.committer? moves k ≠ some i) :
    Stands crew moves i Fresh Good n
  | settled {t m : Nat} (le : t ≤ m) (lt : m < n) (fresh : Fresh ((crew.past moves t).program i))
      (clear : ∀ k, t ≤ k → k < n → ¬crew.SetBackAt moves i k)
      (once : ∀ k < n, crew.committer? moves k = some i → k = m)
      (settles : ((crew.past moves n).program i).Settles Good) :
    Stands crew moves i Fresh Good n

section

variable {Fresh : Program α → Prop} {Good : α → Prop}

theorem clear_succ {t : Nat} (clear : ∀ k, t ≤ k → k < n → ¬crew.SetBackAt moves i k)
    (hback : ¬crew.SetBackAt moves i n) : ∀ k, t ≤ k → k < n + 1 → ¬crew.SetBackAt moves i k := by
  intro k hk hlt
  obtain hlt | rfl := Nat.lt_succ_iff_lt_or_eq.mp hlt
  · exact clear k hk hlt
  · exact hback

namespace Stands

variable (h) (hr : Restarts Fresh Good) (hn : n < moves.length)

include h hn

theorem step_working {t : Nat} (le : t ≤ n) (fresh : Fresh ((crew.past moves t).program i))
    (clear : ∀ k, t ≤ k → k < n → ¬crew.SetBackAt moves i k)
    (falters : ((crew.past moves n).program i).Falters (Program.Returns Fresh fun a => ¬Good a))
    (commitsLast : ((crew.past moves n).program i).CommitsLast Good)
    (uncommitted : ∀ k < n, crew.committer? moves k ≠ some i) :
    crew.Stands moves i Fresh Good (n + 1) := by
  cases h.passes hn i
  case idle same hback hnone =>
    exact .working (le.trans n.le_succ) fresh (clear_succ clear hback) (same ▸ falters)
      (same ▸ commitsLast) (Nat.forall_lt_succ_right.mpr ⟨uncommitted, hnone⟩)
  case setBack r next x asks faulted left hnone =>
    rw [asks] at falters
    exact .returning (left ▸ (falters x).1 faulted) (Nat.forall_lt_succ_right.mpr ⟨uncommitted, hnone⟩)
  case served r next x asks left hback hnone =>
    rw [asks] at falters commitsLast
    exact .working (le.trans n.le_succ) fresh (clear_succ clear hback) (left ▸ (falters x).2)
      (left ▸ commitsLast.next x) (Nat.forall_lt_succ_right.mpr ⟨uncommitted, hnone⟩)
  case committed tx changes next asks left hback hc =>
    rw [asks] at commitsLast
    refine .settled le n.lt_succ_self fresh (clear_succ clear hback) ?_ (left ▸ commitsLast.1)
    exact Nat.forall_lt_succ_right.mpr ⟨fun k hk heq => absurd heq (uncommitted k hk), fun _ => rfl⟩

theorem step_settled {t m : Nat} (le : t ≤ m) (lt : m < n)
    (fresh : Fresh ((crew.past moves t).program i))
    (clear : ∀ k, t ≤ k → k < n → ¬crew.SetBackAt moves i k)
    (once : ∀ k < n, crew.committer? moves k = some i → k = m)
    (settles : ((crew.past moves n).program i).Settles Good) :
    crew.Stands moves i Fresh Good (n + 1) := by
  have lt' := lt.trans n.lt_succ_self
  cases h.passes hn i
  case idle same hback hnone =>
    exact .settled le lt' fresh (clear_succ clear hback)
      (Nat.forall_lt_succ_right.mpr ⟨once, fun hc => absurd hc hnone⟩) (same ▸ settles)
  case setBack r next x asks faulted left hnone =>
    rw [asks] at settles
    simp [settles.1.faulted_eq x] at faulted
  case served r next x asks left hback hnone =>
    rw [asks] at settles
    exact .settled le lt' fresh (clear_succ clear hback)
      (Nat.forall_lt_succ_right.mpr ⟨once, fun hc => absurd hc hnone⟩) (left ▸ settles.2 x)
  case committed tx changes next asks left hback hc =>
    rw [asks] at settles
    exact settles.1.elim

include hr

theorem step_returning (returns : ((crew.past moves n).program i).Returns Fresh fun a => ¬Good a)
    (uncommitted : ∀ k < n, crew.committer? moves k ≠ some i) :
    crew.Stands moves i Fresh Good (n + 1) := by
  have hfresh (fresh : Fresh ((crew.past moves n).program i)) :
      crew.Stands moves i Fresh Good (n + 1) :=
    step_working h hn le_rfl fresh (fun k hk hlt => by omega) (hr.falters fresh)
      (hr.commitsLast fresh) uncommitted
  -- What is asked for on the way is no commit, and any answer to it keeps the member on its way.
  have hasks {r : Request} {next : r.Response → Program α} {x : r.Response}
      (asks : (crew.past moves n).program i = .ask r next)
      (left : (crew.past moves (n + 1)).program i = next x)
      (hnone : crew.committer? moves n ≠ some i) : crew.Stands moves i Fresh Good (n + 1) := by
    rw [asks] at returns hfresh
    obtain hp | ⟨-, hrest⟩ := returns
    · exact hfresh hp
    · exact .returning (left ▸ hrest x) (Nat.forall_lt_succ_right.mpr ⟨uncommitted, hnone⟩)
  cases h.passes hn i
  case idle same hback hnone =>
    exact .returning (same ▸ returns) (Nat.forall_lt_succ_right.mpr ⟨uncommitted, hnone⟩)
  case setBack asks faulted left hnone => exact hasks asks left hnone
  case served asks left hback hnone => exact hasks asks left hnone
  case committed tx changes next asks left hback hc =>
    rw [asks] at returns hfresh
    obtain hp | ⟨hharmless, -⟩ := returns
    · exact hfresh hp
    · exact absurd rfl (hharmless tx changes)

theorem step (hs : crew.Stands moves i Fresh Good n) : crew.Stands moves i Fresh Good (n + 1) := by
  cases hs
  case working le fresh clear falters commitsLast uncommitted =>
    exact step_working h hn le fresh clear falters commitsLast uncommitted
  case returning returns uncommitted => exact step_returning h hr hn returns uncommitted
  case settled le lt fresh clear once settles =>
    exact step_settled h hn le lt fresh clear once settles

omit hn

theorem run (hstart : Fresh (crew.program i)) (hn : n ≤ moves.length) :
    crew.Stands moves i Fresh Good n := by
  induction n
  case zero =>
    exact .working le_rfl hstart nofun (hr.falters hstart) (hr.commitsLast hstart) nofun
  case succ n ih => exact step h hr hn (ih (Nat.le_of_succ_le hn))

end Stands

theorem runs_of_clear {a : α} {t u : Nat} (le : t ≤ moves.length)
    (clear : ∀ k, t ≤ k → k < moves.length → ¬crew.SetBackAt moves i k)
    (hruns : ((crew.play moves).program i).Runs (view h moves i) moves.length a u) :
    ∃ v, ((crew.past moves t).program i).Runs (view h moves i) t a v := by
  have hfollows (n : Nat) (hn : t ≤ n) (hlt : n < moves.length) :
      Program.Follows (view h moves i) (fun n => (crew.past moves n).program i) n :=
    view_follows hlt (clear n hn hlt)
  rw [← past_length] at hruns
  obtain ⟨v, -, hruns⟩ := Program.Follows.runs hfollows le hruns
  exact ⟨v, hruns⟩

variable (hr : Restarts Fresh Good) (hstart : Fresh (crew.program i))

include hr hstart

-- A member whose commit was accepted only logs and reports any more, and its value is that of a run
-- from its last fresh start on.
theorem exists_runs_of_committer (h : crew.Ready) (hc : crew.committer? moves m = some i) :
    ∃ t a u, Fresh ((crew.past moves t).program i) ∧ Good a ∧
      ((crew.past moves t).program i).Runs (view h moves i) t a u ∧
      ((crew.play moves).program i).Settles (· = a) ∧
      ∀ k, crew.committer? moves k = some i → k = m := by
  have hlt {k : Nat} (hk : crew.committer? moves k = some i) : k < moves.length := by
    obtain ⟨_, hmove, -⟩ := Option.bind_eq_some_iff.mp hk
    exact (List.getElem?_eq_some_iff.mp hmove).1
  cases Stands.run h hr hstart le_rfl
  case working uncommitted => exact absurd hc (uncommitted m (hlt hc))
  case returning uncommitted => exact absurd hc (uncommitted m (hlt hc))
  case settled t m' le lt fresh clear once settles =>
    have hover (n : Nat) (hn : moves.length ≤ n) : (view h moves i).turn n = .silent ∧
        (view h moves i).store (n + 1) = (view h moves i).store n := by
      have hnone : moves[n]? = none := List.getElem?_eq_none_iff.mpr hn
      exact ⟨by simp only [view, hnone], by simp only [view, past_of_none hnone]⟩
    rw [past_length] at settles
    obtain ⟨a, v, ha, hsettles, hruns⟩ := settles.exists_runs hover
    obtain ⟨u, hruns⟩ := runs_of_clear (le.trans lt.le) clear hruns
    refine ⟨t, a, u, fresh, ha, hruns, hsettles, fun k hk => ?_⟩
    exact (once k (hlt hk) hk).trans (once m (hlt hc) hc).symm

-- So is the value of a member that has ended well.
theorem exists_runs_of_done (h : crew.Ready) {a : α} (hdone : (crew.play moves).program i = .done a)
    (ha : Good a) : ∃ t u, Fresh ((crew.past moves t).program i) ∧
      ((crew.past moves t).program i).Runs (view h moves i) t a u := by
  have hend : ((crew.play moves).program i).Runs (view h moves i) moves.length a moves.length :=
    hdone ▸ ⟨rfl, rfl⟩
  cases Stands.run h hr hstart le_rfl
  case working t le fresh clear falters commitsLast uncommitted =>
    obtain ⟨u, hruns⟩ := runs_of_clear le clear hend
    exact ⟨t, u, fresh, hruns⟩
  case returning returns uncommitted =>
    rw [past_length, hdone] at returns
    obtain hfresh | hbad := returns
    · exact ⟨moves.length, moves.length, by rwa [past_length, hdone], by rwa [past_length]⟩
    · exact absurd ha hbad
  case settled t m le lt fresh clear once settles =>
    obtain ⟨u, hruns⟩ := runs_of_clear (le.trans lt.le) clear hend
    exact ⟨t, u, fresh, hruns⟩

end

end Crew

end NamespaceService
