import NamespaceService.Proofs.Transaction.Learning
import NamespaceService.Proofs.Transaction.Overlay

namespace NamespaceService

open Function Program

variable {rows edited : Rows} {finder : Finder} {event : Event} {found : Option Row}

theorem finds_iff (hnames : NamesApart edited.find?) :
    Finds edited.find? finder found ↔ found = edited.lookup finder := by
  have hlookup (row : Row) :
      edited.lookup finder = some row ↔ edited.find? row.key = some row ∧ finder.selects row := by
    constructor
    case mp =>
      intro h
      obtain ⟨hmem, hsel⟩ := Rows.mem_of_lookup h
      exact ⟨SortedBy.find?_of_mem hmem, hsel⟩
    case mpr =>
      rintro ⟨hfind, hsel⟩
      exact Rows.lookup_of_selects hnames (SortedBy.mem_of_find? hfind) hsel
  constructor
  case mp => exact fun h => Option.ext fun row => (h row).trans (hlookup row).symm
  case mpr =>
    rintro rfl row
    exact hlookup row

theorem lists_lookupList : Lists edited.find? finder (edited.lookupList finder) := by
  refine ⟨edited.nodup_toList.filter _, fun row => ?_⟩
  rw [Rows.mem_lookupList_iff, SortedBy.mem_iff_find?]

-- The rows of a store are listed in order.
theorem lists_lookupList_iff :
    Lists edited.find? finder (rows.lookupList finder) ↔
      rows.lookupList finder = edited.lookupList finder := by
  constructor
  case mpr => exact fun heq => heq ▸ lists_lookupList
  case mp =>
    rintro ⟨hnodup, hmem⟩
    obtain ⟨hnodup', hmem'⟩ : Lists edited.find? finder (edited.lookupList finder) := lists_lookupList
    have hperm : (rows.lookupList finder).Perm (edited.lookupList finder) :=
      (List.perm_ext_iff_of_nodup hnodup hnodup').mpr fun row => (hmem row).trans (hmem' row).symm
    exact hperm.eq_of_pairwise (fun _ _ _ _ hab hba => absurd hba hab.asymm)
      (rows.sorted.filter _) (edited.sorted.filter _)

-- A call of the store is answered alike in both.
def Rows.Alike (rows edited : Rows) : Event → Prop
  | .find _ _ finder | .probe _ finder => rows.lookup finder = edited.lookup finder
  | .findList _ _ finder => rows.lookupList finder = edited.lookupList finder
  | _ => True

instance : ∀ event, Decidable (rows.Alike edited event)
  | .find .. | .probe .. | .findList .. => inferInstanceAs (Decidable (_ = _))
  | .begin _ | .commit .. | .rollback _ => inferInstanceAs (Decidable True)

namespace Context

variable {c c' : Context} {edited' : Rows} {new? : Option Row} {key : Key} {row : Row}

def unlisted (c : Context) : Context :=
  { c with lists := fun _ => none }

-- The lists that are known, over these rows.
def listing (edited : Rows) (c : Context) : Context :=
  { c with rows := edited.find?, singles := fun _ => none }

-- What is known is what the rows give; the rows of a list may be in any order.
structure Renders (edited : Rows) (c : Context) : Prop where
  faithful : c.unlisted.Faithful edited
  listed : (c.listing edited).Consistent
  known {finder : Finder} {keys : List Key} : c.lists finder = some keys →
    ∀ key ∈ keys, c.rows key = edited.find? key

namespace Faithful

theorem unlisted (h : c.Faithful edited) : c.unlisted.Faithful edited where
  row := h.row
  single := h.single
  list := nofun
  unsealed := h.unsealed
  absent := h.absent

-- A key gets a new row or none. Lookups of the new row come to find it, and lookups that only the
-- old row answered find nothing.
theorem of_update (h : c.Faithful edited) (hrows : c'.rows = update c.rows key new?)
    (hedited : edited'.find? = update edited.find? key new?)
    (hlists : ∀ finder, c'.lists finder = none)
    (hsingles : ∀ finder, c'.singles finder = if new?.any finder.selects then some (some key)
      else if (c.rows key).any finder.selects then some none else c.singles finder)
    (hs : c'.sealed = c.sealed) (hnames : NamesApart edited.find?)
    (hnames' : NamesApart edited'.find?) :
    c'.Faithful edited' where
  row {k row} hrow := by
    rw [hrows, update_apply] at hrow
    rw [hedited, update_apply]
    split at hrow
    case isTrue heq => rwa [if_pos heq]
    case isFalse hne => rw [if_neg hne, h.row hrow]
  single {finder k} hkey := by
    rw [hsingles] at hkey
    split at hkey
    case isTrue hnew =>
      cases hkey
      obtain ⟨row, rfl, hsel⟩ := Option.any_eq_true _ _ |>.mp hnew
      have hfind : edited'.find? key = some row := by simp [hedited]
      exact ⟨row, Rows.lookup_of_selects hnames' (SortedBy.mem_of_find? hfind) hsel,
        SortedBy.key_of_find? hfind, by simp [hrows]⟩
    case isFalse =>
      split at hkey
      case isTrue => cases hkey
      case isFalse hold =>
        obtain ⟨row, hlookup, hrowkey, hknown⟩ := h.single hkey
        have hsel := (Rows.mem_of_lookup hlookup).2
        have hne : k ≠ key := by
          rintro rfl
          exact hold (by simp [hknown, hsel])
        have hfind : edited'.find? k = some row := by simp [hedited, hne, h.row hknown]
        exact ⟨row, Rows.lookup_of_selects hnames' (SortedBy.mem_of_find? hfind) hsel, hrowkey,
          by simp [hrows, hne, hknown]⟩
  list hkeys := by cases (hlists _).symm.trans hkeys
  unsealed := hs.trans h.unsealed
  absent {finder} hkey := by
    rw [hsingles] at hkey
    split at hkey
    case isTrue => cases hkey
    case isFalse hnew =>
      refine Rows.lookup_eq_none_iff.mpr fun row hmem => ?_
      by_contra hsel
      rw [Bool.not_eq_false] at hsel
      have hfind := SortedBy.find?_of_mem hmem
      rw [hedited, update_apply] at hfind
      split at hfind
      case isTrue heq => exact hnew (by simp [hfind, hsel])
      case isFalse hne =>
        split at hkey
        case isTrue hold =>
          obtain ⟨old, hknown, hselold⟩ := Option.any_eq_true _ _ |>.mp hold
          have hany : (edited.find? row.key).any finder.selects := by simp [hfind, hsel]
          have hanyold : (edited.find? key).any finder.selects := by simp [h.row hknown, hselold]
          exact hne (hnames.eq_of_any (fun _ _ => SortedBy.key_of_find?) hany hanyold)
        case isFalse =>
          have hnone := Rows.lookup_eq_none_iff.mp (h.absent hkey) row (SortedBy.mem_of_find? hfind)
          cases hnone.symm.trans hsel

end Faithful

-- Only the changed row comes to lists that were read before.
theorem mem_of_upsert_lists {keys : List Key} (hkeys : (c.upsert row).lists finder = some keys)
    (hmem : key ∈ keys) (hne : key ≠ row.key) :
    ∃ before, c.lists finder = some before ∧ key ∈ before := by
  have hkept {keys : List Key} (hkeys : c.kept row.key finder = some keys) (hmem : key ∈ keys) :
      ∃ before, c.lists finder = some before ∧ key ∈ before := by
    rw [kept] at hkeys
    split at hkeys
    case isTrue =>
      obtain ⟨before, hbefore, rfl⟩ := Option.map_eq_some_iff.mp hkeys
      exact ⟨before, hbefore, List.mem_of_mem_filter hmem⟩
    case isFalse => exact ⟨keys, hkeys, hmem⟩
  rw [upsert_lists] at hkeys
  split at hkeys
  case isTrue =>
    obtain ⟨before, hbefore, rfl⟩ := Option.map_eq_some_iff.mp hkeys
    exact hkept hbefore ((List.mem_append.mp hmem).resolve_right (by simpa using hne))
  case isFalse => exact hkept hkeys hmem

theorem Consistent.listing_of (h : c'.Consistent) (hrows : c'.rows = edited.find?)
    (hlists : ∀ finder, c.lists finder = c'.lists finder) : (c.listing edited).Consistent where
  keyed _ _ := SortedBy.key_of_find?
  single := nofun
  list {finder keys} hkeys := by
    have hlist := h.list ((hlists finder).symm.trans hkeys)
    rwa [hrows] at hlist

namespace Renders

theorem new (rows : Rows) (tx : TxId) : Renders rows (.new tx) where
  faithful := (Faithful.new rows tx).unlisted
  listed := ⟨fun _ _ => SortedBy.key_of_find?, nofun, nofun⟩
  known := nofun

-- Where a list is known, so is whether the old row of a key belongs to it.
theorem any_lists (h : c.Renders edited) {keys : List Key} (hkeys : c.lists finder = some keys) :
    (c.rows key).any finder.lists = (edited.find? key).any finder.lists := by
  by_cases hmem : key ∈ keys
  case pos => rw [h.known hkeys key hmem]
  case neg =>
    have hnot : ¬(edited.find? key).any finder.lists :=
      fun hany => hmem (((h.listed.list hkeys).2 key).mpr hany)
    cases hrow : c.rows key
    case none => simpa using hnot
    case some row => rw [h.faithful.row hrow]

theorem kept_eq (h : c.Renders edited) : c.kept key finder = (c.listing edited).kept key finder := by
  rw [kept, kept]
  cases hkeys : c.lists finder
  case none => simp [listing, hkeys]
  case some keys =>
    rw [h.any_lists hkeys, ← hkeys]
    rfl

theorem upsert (h : c.Renders edited) (hnames : NamesApart edited.find?)
    (hnames' : NamesApart (edited.insert row).find?) : (c.upsert row).Renders (edited.insert row) := by
  have hedited : (edited.insert row).find? = update edited.find? row.key (some row) := by
    funext key
    simp [update_apply, SortedBy.find?_insert, eq_comm]
  have hlisted : ((c.listing edited).upsert row).rows = (edited.insert row).find? := by
    rw [upsert_rows_eq, hedited]
    rfl
  refine ⟨?faithful, ?listed, fun {finder keys} hkeys key hmem => ?known⟩
  case faithful =>
    refine h.faithful.of_update upsert_rows_eq hedited (fun _ => rfl) (fun finder => ?_)
      (Edits.upsert row).sealed hnames hnames'
    exact upsert_singles_eq.trans (by rw [Option.any_some]; rfl)
  case listed =>
    refine (h.listed.upsert hnames (hlisted ▸ hnames')).listing_of hlisted fun finder => ?_
    rw [upsert_lists, upsert_lists, h.kept_eq]
  case known =>
    rw [upsert_rows_eq, hedited, update_apply, update_apply]
    split
    case isTrue => rfl
    case isFalse hne =>
      obtain ⟨before, hbefore, hold⟩ := mem_of_upsert_lists hkeys hmem hne
      exact h.known hbefore key hold

theorem remove (h : c.Renders edited) (hnames : NamesApart edited.find?)
    (hnames' : NamesApart (edited.erase key).find?) : (c.remove key).Renders (edited.erase key) := by
  have hedited : (edited.erase key).find? = update edited.find? key none := by
    funext k
    simp [update_apply, SortedBy.find?_erase, eq_comm]
  have hlisted : ((c.listing edited).remove key).rows = (edited.erase key).find? := by
    rw [remove_rows, hedited]
    rfl
  refine ⟨?faithful, ?listed, fun {finder keys} hkeys k hmem => ?known⟩
  case faithful =>
    refine h.faithful.of_update remove_rows hedited (fun _ => rfl) (fun finder => ?_)
      (Edits.remove key).sealed hnames hnames'
    exact remove_singles.trans (by rw [Option.any_none]; rfl)
  case listed => exact (h.listed.remove hnames).listing_of hlisted fun _ => rfl
  case known =>
    obtain ⟨before, hbefore, rfl⟩ := Option.map_eq_some_iff.mp hkeys
    obtain ⟨hold, hne⟩ := List.mem_filter.mp hmem
    rw [remove_rows, hedited, update_of_ne (by simpa using hne), update_of_ne (by simpa using hne)]
    exact h.known hbefore k hold

end Renders

theorem foldl_unlisted {f : Context → Row → Context} {found : List Row}
    (hf : ∀ c row, (f c row).unlisted = f c.unlisted row) :
    (found.foldl f c.unlisted).unlisted = (found.foldl f c).unlisted := by
  have hcommutes (c : Context) : (found.foldl f c).unlisted = found.foldl f c.unlisted := by
    induction found generalizing c
    case nil => rfl
    case cons row found ih => rw [List.foldl_cons, List.foldl_cons, ih, hf]
  rw [hcommutes, hcommutes]
  rfl

-- What is learned does not depend on the lists that were known.
theorem learn_unlisted {step : Session.ContextStep} :
    (step.learn edited c.unlisted).unlisted = (step.learn edited c).unlisted := by
  cases step
  case lockFind kind finder =>
    rw [Session.ContextStep.learn, Session.ContextStep.learn]
    cases edited.lookup finder
    case some => rfl
    case none =>
      rw [learnLocked, learnLocked]
      split <;> rfl
  case find finder =>
    rw [Session.ContextStep.learn, Session.ContextStep.learn]
    cases edited.lookup finder <;> rfl
  case lockList | findList => exact foldl_unlisted fun _ _ => rfl
  all_goals rfl

theorem Faithful.step_learn {step : Session.ContextStep} (h : c.Faithful edited)
    (hnames : NamesApart edited.find?) : (step.learn edited c).Faithful edited := by
  cases step
  case lockFind => exact h.learnLocked hnames
  case lockList => exact h.learnLockedList hnames
  case find => exact h.learn hnames
  case findList => exact h.learnList hnames
  all_goals exact h

theorem mem_lookupList_keys_iff :
    key ∈ (edited.lookupList finder).map Row.key ↔ (edited.find? key).any finder.lists := by
  rw [List.mem_map, Option.any_eq_true]
  constructor
  case mp =>
    rintro ⟨row, hrow, rfl⟩
    obtain ⟨hmem, hlists⟩ := Rows.mem_lookupList_iff.mp hrow
    exact ⟨row, SortedBy.find?_of_mem hmem, hlists⟩
  case mpr =>
    rintro ⟨row, hfind, hlists⟩
    exact ⟨row, Rows.mem_lookupList_iff.mpr ⟨SortedBy.mem_of_find? hfind, hlists⟩,
      SortedBy.key_of_find? hfind⟩

theorem Renders.learn {step : Session.ContextStep} {tx : TxId} (h : c.Renders edited)
    (hnames : NamesApart edited.find?) (hcall : step.call? tx = some event) :
    (step.learn edited c).Renders edited := by
  have hlearned : (step.learn edited c.unlisted).Faithful edited := h.faithful.step_learn hnames
  have hrows : (step.learn edited c.unlisted).rows = (step.learn edited c).rows :=
    show (step.learn edited c.unlisted).unlisted.rows = (step.learn edited c).unlisted.rows by
      rw [learn_unlisted]
  refine ⟨?faithful, ⟨fun _ _ => SortedBy.key_of_find?, nofun, fun {finder keys} hkeys => ?listed⟩,
    fun {finder keys} hkeys key hmem => ?known⟩
  case faithful =>
    rw [← learn_unlisted]
    exact hlearned.unlisted
  case listed =>
    replace hkeys := (Session.ContextStep.learn_list hcall).symm.trans hkeys
    split at hkeys
    case isTrue =>
      cases hkeys
      exact ⟨List.pairwise_map.mpr (Rows.lookupList_keys ..), fun key => mem_lookupList_keys_iff⟩
    case isFalse => exact h.listed.list hkeys
  case known =>
    rw [← hrows]
    rw [Session.ContextStep.learn_list hcall] at hkeys
    by_cases hlist : event.list? = some finder
    case pos =>
      rw [if_pos hlist] at hkeys
      cases hkeys
      obtain ⟨row, hrow, rfl⟩ := List.mem_map.mp hmem
      have hread : (step.learn edited c.unlisted).lists finder =
          some ((edited.lookupList finder).map Row.key) :=
        (Session.ContextStep.learn_list hcall).trans (if_pos hlist)
      rw [(hlearned.list hread).2 row hrow, SortedBy.find?_of_mem (Rows.mem_lookupList_iff.mp hrow).1]
    case neg =>
      rw [if_neg hlist] at hkeys
      obtain ⟨row, hrow, -⟩ := Option.any_eq_true _ _ |>.mp (((h.listed.list hkeys).2 key).mp hmem)
      have hknown : c.unlisted.rows key = some row := (h.known hkeys key hmem).trans hrow
      have hrecollects : c.unlisted.Recollects (step.learn edited c.unlisted) :=
        (h.faithful.toReflects.step_learn hnames).2
      exact (hrecollects.row hknown).trans hrow.symm

theorem Renders.knownList? (h : c.Renders edited) {found : List Row}
    (hfound : c.knownList? finder = some found) : Lists edited.find? finder found := by
  refine h.listed.knownList? ?_
  obtain ⟨keys, hkeys, rfl⟩ := Option.map_eq_some_iff.mp hfound
  refine Option.map_eq_some_iff.mpr ⟨keys, hkeys, ?_⟩
  exact List.filterMap_congr fun key hmem => (h.known hkeys key hmem).symm

end Context

namespace Session

namespace ContextStep

variable {step : ContextStep} {c : Context} {tx : TxId} {reply : Reply}

theorem learn_congr (hcall : step.call? tx = some event) (halike : rows.Alike edited event) :
    step.learn rows c = step.learn edited c := by
  cases step
  all_goals cases hcall
  case probe => rfl
  all_goals rw [learn, learn, show _ = _ from halike]

theorem applied_of_finds (h : step.finds) : step.applied edited = edited := by
  cases step <;> first | rfl | cases h

-- A known answer is what the changed rows give.
theorem tells_known (h : c.Renders edited) (hnames : NamesApart edited.find?)
    (hknown : step.known? c = some reply) : step.Tells edited.find? reply := by
  cases step
  case lockFind | probe | find =>
    obtain ⟨found, hfound, rfl⟩ := Option.map_eq_some_iff.mp hknown
    refine ⟨found, (finds_iff hnames).mpr ?_, rfl⟩
    first
    | exact h.faithful.lockedAnswer? hfound
    | exact h.faithful.knownSingle? hfound
    | exact h.faithful.knownAnswer? hfound
  case lockList =>
    obtain ⟨found, hfound, rfl⟩ := Option.map_eq_some_iff.mp hknown
    exact ⟨found, h.knownList? (Context.knownList?_of_lockedList? hfound), rfl⟩
  case findList =>
    obtain ⟨found, hfound, rfl⟩ := Option.map_eq_some_iff.mp hknown
    exact ⟨found, h.knownList? hfound, rfl⟩
  all_goals cases hknown

-- The store's answer is what the changed rows give if and only if they give it alike.
theorem tells_direct_iff (hnames : NamesApart edited.find?) (hcall : step.call? tx = some event)
    (hdirect : step.direct? rows = some reply) :
    step.Tells edited.find? reply ↔ rows.Alike edited event := by
  cases step
  all_goals cases hcall
  all_goals cases hdirect
  case lockFind | probe | find => simp [Tells, finds_iff hnames, Rows.Alike]
  case lockList | findList => simp [Tells, lists_lookupList_iff, Rows.Alike]

end ContextStep

open ContextStep

variable {x : Entry} {xs : List Entry} {c c' : Context} {tx : TxId}

-- Every call of the store is answered as if the changes made so far were in the store.
def Untouched (rows : Rows) : Rows → List Entry → Prop
  | _, [] => True
  | edited, x :: xs =>
    (∀ event ∈ x.asked, rows.Alike edited event) ∧ Untouched rows (x.step.applied edited) xs

instance decidableUntouched (rows : Rows) : ∀ edited xs, Decidable (Untouched rows edited xs)
  | _, [] => inferInstanceAs (Decidable True)
  | edited, x :: xs =>
    have := decidableUntouched rows (x.step.applied edited) xs
    inferInstanceAs (Decidable (_ ∧ _))

theorem Entry.Comes.tells_iff (h : x.Comes c c') (hc : c.Renders edited)
    (hnames : NamesApart edited.find?) :
    (∀ answer, x.reply = .ok answer → x.step.Tells edited.find? answer) ↔
      ∀ event ∈ x.asked, x.rows.Alike edited event := by
  cases h
  case known hknown hreply hevents =>
    have htells := tells_known hc hnames hknown
    simpa [asked_nil hevents, hreply] using htells
  case failed _ hreply hevents => simp [asked_nil hevents, hreply]
  case answered hcall hdirect hreply hevents =>
    have hiff := tells_direct_iff hnames hcall hdirect
    simpa [asked_of_events hevents, hreply] using hiff

theorem Entry.Comes.renders (h : x.Comes c c') (hc : c.Renders edited)
    (hnames : NamesApart edited.find?)
    (halike : ∀ event ∈ x.asked, x.rows.Alike edited event) : c'.Renders edited := by
  cases h
  case known | failed => exact hc
  case answered event _ _ _ hcall _ _ hevents =>
    rw [learn_congr hcall (halike event (asked_of_events hevents ▸ List.mem_singleton_self event))]
    exact hc.learn hnames hcall

theorem Entry.tells_iff (hstep : x.step.finds ∨ x.step.edits) (hc : c.Renders edited)
    (hnames : NamesApart edited.find?)
    (hrun : (x.step.run c).run x.before = some ((x.reply, c'), x.after)) :
    (∀ answer, x.reply = .ok answer → x.step.Tells edited.find? answer) ↔
      ∀ event ∈ x.asked, x.rows.Alike edited event := by
  obtain hfinds | hedits := hstep
  · exact (comes hfinds hrun).tells_iff hc hnames
  · obtain ⟨-, -, hasked⟩ := eq_written (.inl hedits) hrun
    cases hx : x.step
    case upsert | remove => simp [hasked, Tells]
    all_goals
      rw [hx] at hedits
      cases hedits

theorem Entry.renders (hstep : x.step.finds ∨ x.step.edits) (hc : c.Renders edited)
    (hnames : NamesApart edited.find?) (hnames' : NamesApart (x.step.applied edited).find?)
    (hrun : (x.step.run c).run x.before = some ((x.reply, c'), x.after))
    (halike : ∀ event ∈ x.asked, x.rows.Alike edited event) : c'.Renders (x.step.applied edited) := by
  obtain hfinds | hedits := hstep
  · rw [applied_of_finds hfinds]
    exact (comes hfinds hrun).renders hc hnames halike
  · obtain ⟨rfl, -⟩ := eq_written (.inl hedits) hrun
    cases hx : x.step
    all_goals rw [hx] at hedits hnames'
    case upsert => exact hc.upsert hnames hnames'
    case remove => exact hc.remove hnames hnames'
    all_goals cases hedits

theorem Transcript.told_iff_of_renders (h : Transcript c xs c') (hc : c.Renders edited)
    (hsteps : ∀ x ∈ xs, x.step.finds ∨ x.step.edits) (hrows : ∀ x ∈ xs, x.rows = rows)
    (hapart : Apart edited.find? (xs.map Entry.step)) :
    Told edited.find? (xs.map Entry.step) (xs.map Entry.reply) ↔ Untouched rows edited xs := by
  induction h generalizing edited
  case nil => exact ⟨fun _ => trivial, fun _ => .nil⟩
  case cons x xs hrun _ ih =>
    obtain ⟨hstep, hlater⟩ := List.forall_mem_cons.mp hsteps
    obtain ⟨rfl, hsame⟩ := List.forall_mem_cons.mp hrows
    obtain ⟨hnames, hafter⟩ := hapart
    rw [edit_find?] at hafter
    have htells := Entry.tells_iff hstep hc hnames hrun
    constructor
    case mp =>
      intro htold
      cases htold
      case cons hfirst hrest =>
      rw [edit_find?] at hrest
      have halike := htells.mp hfirst
      have hc' := Entry.renders hstep hc hnames hafter.start hrun halike
      exact ⟨halike, (ih hc' hlater hsame hafter).mp hrest⟩
    case mpr =>
      rintro ⟨halike, huntouched⟩
      have hc' := Entry.renders hstep hc hnames hafter.start hrun halike
      refine .cons (htells.mpr halike) ?_
      rw [edit_find?]
      exact (ih hc' hlater hsame hafter).mpr huntouched

-- Nobody else changes the store. All that is read is what its rows give with the changes made, if and
-- only if the store is never asked for something that the changes made a difference to.
theorem Transcript.told_iff (h : Transcript (.new tx) xs c)
    (hsteps : ∀ x ∈ xs, x.step.finds ∨ x.step.edits) (hrows : ∀ x ∈ xs, x.rows = rows)
    (hapart : Apart rows.find? (xs.map Entry.step)) :
    Told rows.find? (xs.map Entry.step) (xs.map Entry.reply) ↔ Untouched rows rows xs :=
  h.told_iff_of_renders (.new rows tx) hsteps hrows hapart

-- The file is read, with its directory, before it is moved.
def readAndMove : List ContextStep :=
  [.find (.nodeNamed ⟨1⟩ "f"), .findList (.children ⟨1⟩),
    .upsert (.node ⟨⟨2⟩, .root, "g", .file, []⟩), .lockFind .write (.node ⟨1⟩), .find (.node ⟨2⟩),
    .findList (.children ⟨1⟩), .probe (.nodeNamed ⟨1⟩ "f"), .find (.nodeNamed .root "g")]

theorem told_iff_readAndMove : ∃ xs c, Transcript (.new 1) xs c ∧ xs.map Entry.step = readAndMove ∧
    Told oneFile.find? readAndMove (xs.map Entry.reply) := by
  obtain ⟨xs, c, h, hsteps, hcheck⟩ := Transcript.exists_checked readAndMove (.new 1)
    { store := .ofRows oneFile }
    (fun xs _ => xs.all (·.rows = oneFile) && decide (Untouched oneFile oneFile xs)) (by decide +kernel)
  simp only [Bool.and_eq_true, List.all_eq_true, decide_eq_true_eq] at hcheck
  obtain ⟨hrows, huntouched⟩ := hcheck
  have hkinds : ∀ step ∈ xs.map Entry.step, step.finds ∨ step.edits := hsteps ▸ by decide
  have hapart : Apart oneFile.find? (xs.map Entry.step) := hsteps ▸ by decide +kernel
  refine ⟨xs, c, h, hsteps, ?_⟩
  have htold := (h.told_iff (List.forall_mem_map.mp hkinds) hrows hapart).mpr huntouched
  rwa [hsteps] at htold

-- The file is locked after it was moved.
def moveAndLock : List ContextStep :=
  [.upsert (.node ⟨⟨2⟩, .root, "g", .file, []⟩), .lockFind .write (.node ⟨2⟩)]

-- What is found under the lock is the file where it was.
theorem moveAndLock_mistold : ∃ x y c, Transcript (.new 1) [x, y] c ∧
    [x, y].map Entry.step = moveAndLock ∧ (∀ z ∈ [x, y], z.rows = oneFile) ∧
    Apart oneFile.find? moveAndLock ∧ ¬Told oneFile.find? moveAndLock [x.reply, y.reply] := by
  obtain ⟨xs, c, h, hsteps, hcheck⟩ := Transcript.exists_checked moveAndLock (.new 1)
    { store := .ofRows oneFile }
    (fun xs _ => xs.all (·.rows = oneFile) &&
      xs.map Entry.row? = [none, some (some (.node ⟨⟨2⟩, ⟨1⟩, "f", .file, []⟩))]) (by decide +kernel)
  obtain ⟨x, y, rfl, -, -⟩ := exists_pair hsteps
  simp only [Bool.and_eq_true, List.all_eq_true, decide_eq_true_eq, List.map_cons, List.map_nil,
    List.cons.injEq, and_true] at hcheck
  obtain ⟨hrows, -, hreply⟩ := hcheck
  refine ⟨x, y, c, h, hsteps, hrows, by decide +kernel, fun htold => ?_⟩
  obtain _ | ⟨-, _ | ⟨htells, -⟩⟩ := htold
  obtain ⟨found, hfound, heq⟩ := htells _ (Entry.row?_eq_some_iff.mp hreply)
  cases heq
  have hknown := ((hfound _).mp rfl).1
  simp [edit, Row.key] at hknown

end Session

end NamespaceService
