import NamespaceService.Proofs.Concurrency.Requests
import NamespaceService.Proofs.Transaction.Holdings

namespace NamespaceService

namespace Context

variable {c c' c'' : Context} {row : Row} {finder : Finder} {found : Option Row} {key key' : Key}
  {supply : Option Rows}

-- Work in a transaction leaves locks and, after the lock phase, first owners as they are.
structure Edits (c c' : Context) : Prop where
  tx : c'.tx = c.tx
  locks : c'.locks = c.locks
  origins : c.sealed → c'.origins = c.origins
  sealed : c'.sealed = c.sealed

theorem Edits.refl (c : Context) : c.Edits c :=
  ⟨rfl, rfl, fun _ => rfl, rfl⟩

theorem Edits.trans (h : c.Edits c') (h' : c'.Edits c'') : c.Edits c'' where
  tx := h'.tx.trans h.tx
  locks := h'.locks.trans h.locks
  origins hs := (h'.origins (h.sealed ▸ hs)).trans (h.origins hs)
  sealed := h'.sealed.trans h.sealed

theorem Edits.upsert (row : Row) : c.Edits (c.upsert row) := by
  rw [Context.upsert]
  split <;> exact ⟨rfl, rfl, fun _ => rfl, rfl⟩

theorem Edits.remove (key : Key) : c.Edits (c.remove key) := by
  rw [Context.remove]
  split <;> exact ⟨rfl, rfl, fun _ => rfl, rfl⟩

theorem upsert_changes : (c.upsert row).changes = c.changes ++ [.upsert row] := by
  rw [upsert]

theorem remove_changes : (c.remove key).changes = c.changes ++ [.remove key] := by
  rw [remove]

theorem upsert_rows (k : Key) :
    (c.upsert row).rows k = if k = row.key then some row else c.rows k := by
  rw [upsert]
  split <;> rfl

-- Every row is known under its own key.
def Keyed (c : Context) : Prop :=
  ∀ key row, c.rows key = some row → row.key = key

theorem Keyed.upsert (h : c.Keyed) : (c.upsert row).Keyed := by
  intro key r hr
  rw [upsert_rows] at hr
  split at hr
  case isTrue heq =>
    cases hr
    exact heq.symm
  case isFalse => exact h key r hr

theorem upsert_singles (h : c.Keyed) (hkey : finder.key? = some key) (hne : key ≠ row.key) :
    (c.upsert row).singles finder = c.singles finder := by
  have hother : ∀ r : Row, r.key = row.key → finder ∉ r.finders := fun r hr hmem =>
    hne ((Finder.key_of_selects hkey (Row.selects_of_mem_finders hmem)).symm.trans hr)
  have hoffer (c : Context) : (c.offerAnswers row).singles finder = c.singles finder :=
    if_neg (hother row rfl)
  rw [Context.upsert]
  split
  case h_1 old hold =>
    exact (hoffer _).trans (if_neg (hother old (h _ _ hold)))
  case h_2 => exact hoffer c

-- The row that a lookup by a key finds has the key.
def Fitting (finder : Finder) (found : Option Row) : Prop :=
  ∀ key, finder.key? = some key → ∀ row, found = some row → row.key = key

theorem fitting_lookup {rows : Rows} : Fitting finder (rows.lookup finder) :=
  fun _ hkey _ hrow => Finder.key_of_selects hkey (Rows.mem_of_lookup hrow).2

theorem learn_rows (hk : ∀ row, found = some row → key ≠ row.key) :
    (c.learn finder found).rows key = c.rows key := by
  cases found
  case none => rfl
  case some row => exact (remember_rows key).trans (if_neg (hk row rfl))

theorem learn_singles {f : Finder} (hf : f ≠ finder)
    (hrow : ∀ row, found = some row → f ∉ row.finders) :
    (c.learn finder found).singles f = c.singles f := by
  cases found
  case none => exact if_neg hf
  case some row => exact (remember_singles f).trans ((if_neg (hrow row rfl)).trans (if_neg hf))

theorem learn_changes : (c.learn finder found).changes = c.changes := by
  cases found <;> rfl

theorem Keyed.learn (h : c.Keyed) : (c.learn finder found).Keyed := by
  cases found
  case none => exact h
  case some row =>
    intro key r hr
    obtain ⟨rfl, rfl⟩ | ⟨-, hr⟩ := row_of_remember hr
    · rfl
    · exact h key r hr

theorem Edits.learn (ho : c.sealed = false) : c.Edits (c.learn finder found) := by
  cases found <;> exact ⟨rfl, rfl, fun hs => absurd hs (by simp [ho]), rfl⟩

theorem Edits.learnList {found : List Row} (ho : c.sealed = false) :
    c.Edits (c.learnList finder found) ∧ (c.learnList finder found).changes = c.changes := by
  have hall : c.Edits (found.foldl remember c) ∧ (found.foldl remember c).changes = c.changes := by
    induction found generalizing c
    case nil => exact ⟨.refl c, rfl⟩
    case cons row found ih =>
      have ⟨hedits, hchanges⟩ := ih (c := c.remember row) ho
      have hrow : c.Edits (c.remember row) := ⟨rfl, rfl, fun hs => absurd hs (by simp [ho]), rfl⟩
      exact ⟨hrow.trans hedits, hchanges⟩
  exact ⟨hall.1.trans ⟨rfl, rfl, fun _ => rfl, rfl⟩, hall.2⟩

-- The work has to do with one key, and leaves what is known of the others.
structure Within (key : Key) (c c' : Context) : Prop extends c.Edits c' where
  keyed : c.Keyed → c'.Keyed
  rows {k : Key} : k ≠ key → c'.rows k = c.rows k
  singles {f : Finder} {k : Key} : f.key? = some k → k ≠ key → c'.singles f = c.singles f

theorem Within.refl (key : Key) (c : Context) : c.Within key c :=
  ⟨.refl c, id, fun _ => rfl, fun _ _ => rfl⟩

theorem Within.trans (h : c.Within key c') (h' : c'.Within key c'') : c.Within key c'' where
  toEdits := h.toEdits.trans h'.toEdits
  keyed := h'.keyed ∘ h.keyed
  rows hk := (h'.rows hk).trans (h.rows hk)
  singles hf hk := (h'.singles hf hk).trans (h.singles hf hk)

theorem Within.upsert (hc : c.Keyed) (row : Row) : c.Within row.key (c.upsert row) where
  toEdits := .upsert row
  keyed := .upsert
  rows hk := (upsert_rows _).trans (if_neg hk)
  singles hf hk := upsert_singles hc hf hk

theorem Within.learn (ho : c.sealed = false) (hkey : finder.key? = some key)
    (hfound : Fitting finder found) : c.Within key (c.learn finder found) where
  toEdits := .learn ho
  keyed := .learn
  rows hk := learn_rows fun row hrow => hfound key hkey row hrow ▸ hk
  singles {f k} hf hk := by
    refine learn_singles (fun heq => hk ?_) fun row hrow hmem => hk ?_
    · exact Option.some.inj (hf.symm.trans (heq ▸ hkey))
    · have hsel := Finder.key_of_selects hf (Row.selects_of_mem_finders hmem)
      exact hsel.symm.trans (hfound key hkey row hrow)

-- Nothing is known of what the lookup would find.
structure Unread (c : Context) (finder : Finder) : Prop where
  single : c.singles finder = none
  row {key : Key} : finder.key? = some key → c.rows key = none

theorem Unread.unknown (h : c.Unread finder) : c.knownAnswer? finder = none := by
  rw [knownAnswer?, knownSingle?, h.single]
  cases hkey : finder.key?
  case none => rfl
  case some key => simp [h.row hkey]

-- The lookup is answered by the context or, while that is open, by the supply.
inductive Offers (supply : Option Rows) (c : Context) (finder : Finder) : Option Row → Prop
  | known {found : Option Row} (h : c.Answers finder found) : Offers supply c finder found
  | unread {rows : Rows} (hrows : supply = some rows) (ho : c.sealed = false)
    (h : c.Unread finder) : Offers supply c finder (rows.lookup finder)

inductive OffersList (supply : Option Rows) (c : Context) (finder : Finder) : List Row → Prop
  | known {found : List Row} (h : c.knownList? finder = some found) :
    OffersList supply c finder found
  | unread {rows : Rows} (hrows : supply = some rows) (ho : c.sealed = false)
    (h : c.lists finder = none) : OffersList supply c finder (rows.lookupList finder)

-- Work on one key does not matter to what is read of another.
theorem Offers.within (h : c.Offers supply finder found) (hfound : Fitting finder found)
    (hkey : finder.key? = some key') (hw : c.Within key c') (hne : key' ≠ key) :
    c'.Offers supply finder found := by
  cases h
  case known h =>
    refine .known ⟨(hw.singles hkey hne).trans h.single, fun {row} hrow => ?_⟩
    exact (hw.rows (hfound key' hkey row hrow ▸ hne)).trans (h.row hrow)
  case unread hrows ho h =>
    refine .unread hrows (hw.sealed.trans ho) ⟨(hw.singles hkey hne).trans h.single, fun hk => ?_⟩
    cases hkey.symm.trans hk
    exact (hw.rows hne).trans (h.row hkey)

end Context

namespace Stage

variable {ε α β : Type} {m : Stage ε α} {f : α → Stage ε β} {c c' c'' : Context} {a : α} {e : ε}
  {supply : Option Rows}

def YieldsTo (supply : Option Rows) (m : Stage ε α) (c : Context) (r : Except ε α)
    (c' : Context) : Prop :=
  Program.Yields supply (m c) (r, c')

namespace YieldsTo

theorem pure : YieldsTo supply (pure a : Stage ε α) c (.ok a) c :=
  .done _

theorem throw : YieldsTo supply (throw e : Stage ε α) c (.error e) c :=
  .done _

theorem bind {r : Except ε β} (hm : YieldsTo supply m c (.ok a) c')
    (hf : YieldsTo supply (f a) c' r c'') : YieldsTo supply (m >>= f) c r c'' := by
  rw [YieldsTo, bind_apply]
  exact Program.Yields.bind hm hf

theorem bind_error (hm : YieldsTo supply m c (.error e) c') :
    YieldsTo supply (m >>= f) c (.error e) c' := by
  rw [YieldsTo, bind_apply]
  exact Program.Yields.bind hm (.done _)

theorem change {f : Context → Context} : YieldsTo supply (Action.change f) c (.ok ()) (f c) :=
  .done _

theorem log {level : Level} {message : String} :
    YieldsTo supply (Action.log level message) c (.ok ()) c :=
  Program.Yields.bind .of_log (.done _)

theorem lift {action : Action α} {a : α} (h : YieldsTo supply action c (.ok a) c') :
    YieldsTo supply (liftM action : Task α) c (.ok a) c' :=
  Program.Yields.bind h (.done _)

theorem lift_error {action : Action α} {fault : Fault}
    (h : YieldsTo supply action c (.error fault) c') :
    YieldsTo supply (liftM action : Task α) c (.error (.failed (.store fault))) c' :=
  Program.Yields.bind h (.done _)

end YieldsTo

end Stage

namespace Action

open Context Stage

variable {c : Context} {finder : Finder} {found : Option Row} {rows : List Row} {row : Row}
  {key : Key} {supply : Option Rows}

theorem find_yields (h : c.Offers supply finder found) : ∃ c',
    YieldsTo supply (find finder) c (.ok found) c' ∧
      (c' = c ∨ c.sealed = false ∧ c' = c.learn finder found) := by
  cases h
  case known h =>
    refine ⟨c, ?_, .inl rfl⟩
    rw [YieldsTo, find, reading, h.known]
    exact .done _
  case unread all hrows ho h =>
    refine ⟨_, ?_, .inr ⟨ho, rfl⟩⟩
    rw [YieldsTo, find, reading, h.unknown]
    simp only [ho]
    exact .find hrows (.done _)

theorem find_within (h : c.Offers supply finder found) (hkey : finder.key? = some key)
    (hfound : Fitting finder found) : ∃ c',
    YieldsTo supply (find finder) c (.ok found) c' ∧ c.Within key c' ∧ c'.changes = c.changes := by
  obtain ⟨c', hy, rfl | ⟨ho, rfl⟩⟩ := find_yields h
  · exact ⟨c', hy, .refl key c', rfl⟩
  · exact ⟨_, hy, .learn ho hkey hfound, learn_changes⟩

theorem findList_yields (h : c.OffersList supply finder rows) : ∃ c',
    YieldsTo supply (findList finder) c (.ok rows) c' ∧ c.Edits c' ∧ c'.changes = c.changes := by
  cases h
  case known h =>
    refine ⟨c, ?_, .refl c, rfl⟩
    rw [YieldsTo, findList, reading, h]
    exact .done _
  case unread all hrows ho h =>
    refine ⟨c.learnList finder (all.lookupList finder), ?_, Edits.learnList ho⟩
    rw [YieldsTo, findList, reading, knownList?, h]
    simp only [ho]
    exact .findList hrows (.done _)

-- A sealed context answers only what it has been told.
theorem findList_prevented (hs : c.sealed) (h : c.lists finder = none) :
    YieldsTo supply (findList finder) c (.error (.storagePrevented finder.text)) c := by
  rw [YieldsTo, findList, reading, knownList?, h]
  simp only [hs]
  exact .done _

theorem upsert_yields : YieldsTo supply (upsert row) c (.ok ()) (c.upsert row) :=
  .change

theorem remove_yields : YieldsTo supply (remove key) c (.ok ()) (c.remove key) :=
  .change

end Action

end NamespaceService
