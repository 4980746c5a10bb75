import NamespaceService.Proofs.Concurrency.Timeline

namespace NamespaceService

namespace Request

-- Log lines and reports.
def Silent : Request → Prop
  | .log _ | .report _ => True
  | _ => False

-- Calls of the store, log lines and reports: requests that never have to wait.
def Plain : Request → Prop
  | .store _ | .log _ | .report _ => True
  | _ => False

end Request

namespace Program

variable {α β : Type} {P Q : Request → Prop} {p : Program α} {f : α → Program β}
  {σ : Timeline} {t u n : Nat} {a : α}

-- All requests are of one sort, and so are the values in the end.
def Keeps (P : Request → Prop) (Good : α → Prop) : Program α → Prop
  | done a => Good a
  | ask r next => P r ∧ ∀ x, (next x).Keeps P Good

namespace Keeps

variable {Good Best : α → Prop} {Good' : β → Prop}

theorem mono (h : p.Keeps P Good) (hpq : ∀ r, P r → Q r) (hgood : ∀ a, Good a → Best a) :
    p.Keeps Q Best := by
  induction p
  case done a => exact hgood a h
  case ask r next ih => exact ⟨hpq r h.1, fun x => ih x (h.2 x)⟩

theorem bind (hp : p.Keeps P Good) (hf : ∀ a, Good a → (f a).Keeps P Good') :
    (p >>= f).Keeps P Good' := by
  induction p
  case done a => exact hf a hp
  case ask r next ih => exact ⟨hp.1, fun x => ih x (hp.2 x)⟩

theorem log {level : Level} {message : String} {Good : Unit → Prop} (h : ∀ line, P (.log line))
    (hgood : Good ()) : (Program.log level message).Keeps P Good :=
  ⟨h _, fun _ => hgood⟩

theorem claimedBy {name : String} (h : p.Keeps P Good)
    (hlog : ∀ line : LogLine, P (.log line) → P (.log (line.claimedBy name))) :
    (p.claimedBy name).Keeps P Good := by
  induction p
  case done => exact h
  case ask r next ih =>
    cases r
    case log line => exact ⟨hlog line h.1, fun x => ih x (h.2 x)⟩
    all_goals exact ⟨h.1, fun x => ih x (h.2 x)⟩

-- Only calls that the program can make are reached.
theorem reaches {call : Store.Call} (h : p.Keeps P Good) (hr : p.Reaches σ call n t) :
    P (.store call) := by
  induction p generalizing t
  case done => cases hr
  case ask r next ih =>
    obtain ⟨rfl, -⟩ | ⟨m, x, -, -, hr⟩ := hr
    · exact h.1
    · exact ih x (h.2 x) hr

theorem runs {b : α} (hp : p.Keeps P Good) (h : p.Runs σ t b u) : Good b := by
  induction p generalizing t
  case done => exact h.1 ▸ hp
  case ask r next ih =>
    have ⟨_, x, _, _, hr⟩ := h
    exact ih x (hp.2 x) hr

end Keeps

abbrev Only (P : Request → Prop) (p : Program α) : Prop :=
  p.Keeps P fun _ => True

theorem Only.mono (h : p.Only P) (hpq : ∀ r, P r → Q r) : p.Only Q :=
  Keeps.mono h hpq fun _ => id

theorem Only.bind (hp : p.Only P) (hf : ∀ a, (f a).Only P) : (p >>= f).Only P :=
  Keeps.bind hp fun a _ => hf a

theorem Only.log {level : Level} {message : String} (h : ∀ line, P (.log line)) :
    (Program.log level message).Only P :=
  Keeps.log h trivial

theorem Only.call {call : Store.Call} (h : P (.store call)) : (Program.call call).Only P :=
  ⟨h, fun _ => trivial⟩

-- The program logs and looks things up, and is done with a value. Its lookups are answered by the
-- rows of the supply; without a supply there are none.
inductive Yields (supply : Option Rows) : Program α → α → Prop
  | done (a : α) : Yields supply (done a) a
  | log {line : LogLine} {next : Unit → Program α} {a : α} (h : Yields supply (next ()) a) :
    Yields supply (ask (.log line) next) a
  | find {rows : Rows} {tx : TxId} {kind : LockKind} {finder : Finder}
      {next : Except Fault (Option Row) → Program α} {a : α} (hrows : supply = some rows)
      (h : Yields supply (next (.ok (rows.lookup finder))) a) :
    Yields supply (ask (.store (.find tx kind finder)) next) a
  | findList {rows : Rows} {tx : TxId} {kind : LockKind} {finder : Finder}
      {next : Except Fault (List Row) → Program α} {a : α} (hrows : supply = some rows)
      (h : Yields supply (next (.ok (rows.lookupList finder))) a) :
    Yields supply (ask (.store (.findList tx kind finder)) next) a

namespace Yields

variable {supply : Option Rows}

theorem bind {b : β} (hp : p.Yields supply a) (hf : (f a).Yields supply b) :
    (p >>= f).Yields supply b := by
  induction hp
  case done => exact hf
  case log ih => exact .log (ih hf)
  case find hrows _ ih => exact .find hrows (ih hf)
  case findList hrows _ ih => exact .findList hrows (ih hf)

theorem of_log {level : Level} {message : String} : (Program.log level message).Yields supply () :=
  .log (.done ())

-- Without lookups, it does not matter who else is at work.
theorem runs {b : α} (hp : p.Yields none a) (h : p.Runs σ t b u) : b = a := by
  induction hp generalizing t
  case done => exact h.1.symm
  case log ih =>
    have ⟨n, x, _, _, hr⟩ := h
    exact ih hr
  case find hrows _ _ => cases hrows
  case findList hrows _ _ => cases hrows

theorem not_reaches {call : Store.Call} (hp : p.Yields none a) : ¬p.Reaches σ call n t := by
  induction hp generalizing t
  case done => exact id
  case log ih =>
    rintro (⟨hr, -⟩ | ⟨m, x, -, -, hr⟩)
    · cases hr
    · exact ih hr
  case find hrows _ _ => cases hrows
  case findList hrows _ _ => cases hrows

end Yields

-- The program only logs and reports, and ends with a value that is `Good`.
abbrev Settles (Good : α → Prop) (p : Program α) : Prop :=
  p.Keeps Request.Silent Good

-- Once a commit is accepted, nothing is asked of the store any more.
def CommitsLast (Good : α → Prop) : Program α → Prop
  | done _ => True
  | ask (.store (.commit _ _)) next =>
    (next (.ok ())).Settles Good ∧ ∀ refusal, (next (.error refusal)).CommitsLast Good
  | ask _ next => ∀ x, (next x).CommitsLast Good

variable {Good : α → Prop} {Good' : β → Prop}

theorem Settles.not_reaches {call : Store.Call} (hp : p.Settles Good) :
    ¬p.Reaches σ call n t :=
  fun h => Keeps.reaches hp h

theorem CommitsLast.bind (hp : p.CommitsLast Good) (hf : ∀ a, (f a).CommitsLast Good')
    (hgood : ∀ a, Good a → (f a).Settles Good') : (p >>= f).CommitsLast Good' := by
  induction p
  case done a => exact hf a
  case ask r next ih =>
    cases r
    case store call =>
      cases call
      case commit tx changes =>
        exact ⟨Keeps.bind hp.1 hgood, fun refusal => ih (.error refusal) (hp.2 refusal)⟩
      all_goals exact fun x => ih x (hp x)
    all_goals exact fun x => ih x (hp x)

-- A program without commits may be followed by anything.
theorem CommitsLast.of_only (hp : p.Only fun r => ∀ tx changes, r ≠ .store (.commit tx changes)) :
    p.CommitsLast Good := by
  induction p
  case done => trivial
  case ask r next ih =>
    cases r
    case store call =>
      cases call
      case commit tx changes => exact absurd rfl (hp.1 tx changes)
      all_goals exact fun x => ih x (hp.2 x)
    all_goals exact fun x => ih x (hp.2 x)

theorem Settles.commitsLast {Best : α → Prop} (hp : p.Settles Good) : p.CommitsLast Best := by
  induction p
  case done => trivial
  case ask r next ih =>
    cases r
    case log | report => exact fun x => ih x (hp.2 x)
    all_goals exact hp.1.elim

theorem CommitsLast.next {r : Request} {next : r.Response → Program α}
    (hp : (ask r next).CommitsLast Good) (x : r.Response) : (next x).CommitsLast Good := by
  cases r
  case store call =>
    cases call
    case commit tx changes =>
      cases x
      case ok => exact hp.1.commitsLast
      case error refusal => exact hp.2 refusal
    all_goals exact hp x
  all_goals exact hp x

theorem CommitsLast.claimedBy {name : String} (hp : p.CommitsLast Good) :
    (p.claimedBy name).CommitsLast Good := by
  induction p
  case done => trivial
  case ask r next ih =>
    cases r
    case store call =>
      cases call
      case commit tx changes =>
        exact ⟨Keeps.claimedBy hp.1 fun _ _ => trivial, fun refusal => ih (.error refusal) (hp.2 refusal)⟩
      all_goals exact fun x => ih x (hp x)
    all_goals exact fun x => ih x (hp x)

theorem Runs.wait (h : p.Runs σ (t + 1) a u) (hturn : σ.turn t = .other) :
    ∃ v ≤ u, p.Runs σ t a v := by
  cases p
  case done b => exact ⟨t, by have := h.2; omega, h.1, rfl⟩
  case ask r next =>
    have ⟨n, x, hn, hx, hr⟩ := h
    exact ⟨u, le_rfl, n, x, hn.wait hturn, hx, hr⟩

theorem Reaches.wait {call : Store.Call} (h : p.Reaches σ call n (t + 1))
    (hturn : σ.turn t = .other) : p.Reaches σ call n t := by
  cases p
  case done => cases h
  case ask r next =>
    obtain ⟨hr, hn, hx⟩ | ⟨m, x, hm, hx, h⟩ := h
    · exact .inl ⟨hr, hn.wait hturn, hx⟩
    · exact .inr ⟨m, x, hm.wait hturn, hx, h⟩

theorem Reaches.le {call : Store.Call} (h : p.Reaches σ call n t) : t ≤ n := by
  induction p generalizing t
  case done => cases h
  case ask r next ih =>
    obtain ⟨-, hn, -⟩ | ⟨m, x, hm, -, h⟩ := h
    · exact hn.le
    · exact hm.le.trans (m.le_succ.trans (ih x h))

-- All calls that are made while the program runs are reached.
theorem Runs.reaches {call : Store.Call} (h : p.Runs σ t a u) (hturn : σ.turn n = .call call)
    (ht : t ≤ n) (hu : n < u) : p.Reaches σ call n t := by
  have hcall : σ.turn n ≠ .other := fun heq => by cases heq.symm.trans hturn
  induction p generalizing t
  case done =>
    cases h.2
    omega
  case ask r next ih =>
    have ⟨m, x, hm, hx, hr⟩ := h
    have hmn : m ≤ n := by
      by_contra hlt
      exact hcall (hm.other ht (by omega))
    obtain rfl | hlt := hmn.eq_or_lt
    case inl =>
      cases r
      case store call' =>
        cases hx.1.symm.trans hturn
        exact .inl ⟨rfl, hm, x, hx⟩
      case log | report => cases hx.1.symm.trans hturn
      all_goals exact hx.elim
    case inr => exact .inr ⟨m, x, hm, hx, ih x hr hlt⟩

-- In this step, what is left of the program waits, or asks for something and goes on with the answer.
def Follows (σ : Timeline) (left : Nat → Program α) (n : Nat) : Prop :=
  σ.turn n = .other ∧ left (n + 1) = left n ∨
    ∃ r next x, left n = ask r next ∧ σ.Answers n r x ∧ left (n + 1) = next x

theorem Follows.runs {left : Nat → Program α} (h : ∀ n, t ≤ n → n < u → Follows σ left n)
    (htu : t ≤ u) {v : Nat} (hruns : (left u).Runs σ u a v) : ∃ w ≤ v, (left t).Runs σ t a w := by
  obtain ⟨k, rfl⟩ := Nat.exists_eq_add_of_le htu
  induction k generalizing t
  case zero => exact ⟨v, le_rfl, hruns⟩
  case succ k ih =>
    rw [Nat.add_comm k, ← Nat.add_assoc] at h hruns
    obtain ⟨w, hw, hrest⟩ := ih (fun n hn => h n (by omega)) (by omega) hruns
    obtain ⟨hturn, heq⟩ | ⟨r, next, x, hp, hx, heq⟩ := h t le_rfl (by omega)
    · rw [heq] at hrest
      have ⟨w', hw', hrest⟩ := hrest.wait hturn
      exact ⟨w', hw'.trans hw, hrest⟩
    · rw [hp]
      exact ⟨w, hw, t, x, ⟨le_rfl, by omega⟩, hx, heq ▸ hrest⟩

theorem Follows.reaches {left : Nat → Program α} {call : Store.Call} {x : call.Response}
    {next : call.Response → Program α} (h : ∀ n, t ≤ n → n < u → Follows σ left n) (htu : t ≤ u)
    (hask : left u = ask (.store call) next) (hx : σ.Answers u (.store call) x) :
    (left t).Reaches σ call u t := by
  obtain ⟨k, rfl⟩ := Nat.exists_eq_add_of_le htu
  induction k generalizing t
  case zero =>
    rw [Nat.add_zero] at hask hx ⊢
    rw [hask]
    exact .inl ⟨rfl, ⟨le_rfl, by omega⟩, x, hx⟩
  case succ k ih =>
    rw [Nat.add_comm k, ← Nat.add_assoc] at h hask hx ⊢
    have hrest := ih (fun n hn => h n (by omega)) (by omega) hask hx
    obtain ⟨hturn, heq⟩ | ⟨r, next, y, hp, hy, heq⟩ := h t le_rfl (by omega)
    · rw [heq] at hrest
      exact hrest.wait hturn
    · rw [hp]
      exact .inr ⟨t, y, ⟨le_rfl, by omega⟩, hy, heq ▸ hrest⟩

-- No commit follows one that is accepted.
theorem CommitsLast.reaches_le {tx tx' : TxId} {changes changes' : List Change} {m : Nat}
    (hp : p.CommitsLast Good) (h : p.Reaches σ (.commit tx changes) n t)
    (hok : σ.Answers n (.store (.commit tx changes)) (.ok ()))
    (h' : p.Reaches σ (.commit tx' changes') m t) : m ≤ n := by
  induction p generalizing t
  case done => cases h
  case ask r next ih =>
    obtain ⟨rfl, hn, -⟩ | ⟨k, x, hk, hx, hr⟩ := h
    · obtain ⟨-, hm, y, hy⟩ | ⟨k, y, hk, hy, hr⟩ := h'
      · exact (hm.unique hn hy.turn_ne hok.turn_ne).le
      · cases hk.unique hn hy.turn_ne hok.turn_ne
        cases hy.unique hok
        exact absurd hr hp.1.not_reaches
    · obtain ⟨-, hm, y, hy⟩ | ⟨k', y, hk', hy, hr'⟩ := h'
      · cases hm.unique hk hy.turn_ne hx.turn_ne
        exact (Nat.le_succ _).trans hr.le
      · cases hk'.unique hk hy.turn_ne hx.turn_ne
        cases hy.unique hx
        exact ih x (hp.next x) hr hr'

-- After an accepted commit, the value is good.
theorem CommitsLast.runs {tx : TxId} {changes : List Change} (hp : p.CommitsLast Good)
    (h : p.Reaches σ (.commit tx changes) n t)
    (hok : σ.Answers n (.store (.commit tx changes)) (.ok ())) (hruns : p.Runs σ t a u) :
    Good a := by
  induction p generalizing t
  case done => cases h
  case ask r next ih =>
    have ⟨m, y, hm, hy, hruns⟩ := hruns
    obtain ⟨rfl, hn, -⟩ | ⟨k, x, hk, hx, hr⟩ := h
    · cases hm.unique hn hy.turn_ne hok.turn_ne
      cases hy.unique hok
      exact hp.1.runs hruns
    · cases hm.unique hk hy.turn_ne hx.turn_ne
      cases hy.unique hx
      exact ih y (hp.next y) hr hruns

end Program

end NamespaceService
