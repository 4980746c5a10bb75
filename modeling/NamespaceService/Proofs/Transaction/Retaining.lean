import NamespaceService.Proofs.Transaction.Caching

namespace NamespaceService

open Program

namespace Context

variable {c c' c'' : Context} {rows : Rows} {finder : Finder} {kind : LockKind} {row : Row}
  {found : List Row}

-- The row is known under its own key.
def Keeps (c : Context) (row : Row) : Prop :=
  c.rows row.key = some row

-- What a lookup of one row finds is known for every row that is known.
def Aliased (c : Context) : Prop :=
  ∀ {key : Key} {row : Row} {finder : Finder}, c.rows key = some row → finder ∈ row.finders →
    (c.singles finder).isSome

structure Retains (c c' : Context) : Prop where
  row {key : Key} : (c.rows key).isSome → (c'.rows key).isSome
  single {finder : Finder} : (c.singles finder).isSome → (c'.singles finder).isSome
  list {finder : Finder} : (c.lists finder).isSome → (c'.lists finder).isSome
  aliased : c.Aliased → c'.Aliased

namespace Retains

theorem refl (c : Context) : c.Retains c :=
  ⟨id, id, id, id⟩

theorem trans (h : c.Retains c') (h' : c'.Retains c'') : c.Retains c'' where
  row := h'.row ∘ h.row
  single := h'.single ∘ h.single
  list := h'.list ∘ h.list
  aliased := h'.aliased ∘ h.aliased

theorem lock (key : Key) : c.Retains (c.lock key kind) :=
  ⟨id, id, id, id⟩

theorem setList (keys : List Key) : c.Retains (c.setList finder keys) where
  row := id
  single := id
  list {f} hlist := by
    change (if f = finder then some keys else c.lists f).isSome
    split
    case isTrue => rfl
    case isFalse => exact hlist
  aliased := id

theorem setSingle (key? : Option Key) : c.Retains (c.setSingle finder key?) := by
  have hsingle {f : Finder} (hf : (c.singles f).isSome) :
      ((c.setSingle finder key?).singles f).isSome := by
    rw [setSingle_singles]
    split
    case isTrue => rfl
    case isFalse => exact hf
  exact ⟨id, hsingle, id, fun h _ _ _ hrow hmem => hsingle (h hrow hmem)⟩

theorem remember (row : Row) : c.Retains (c.remember row) := by
  have hsingle {f : Finder} (hf : (c.singles f).isSome) : ((c.remember row).singles f).isSome := by
    rw [remember_singles]
    split
    case isTrue => rfl
    case isFalse => exact hf
  refine ⟨fun {key} hkey => ?_, hsingle, id, fun h key first f hfirst hmem => ?_⟩
  · rw [remember_rows]
    split
    case isTrue => rfl
    case isFalse => exact hkey
  · rw [remember_rows] at hfirst
    split at hfirst
    case isFalse => exact hsingle (h hfirst hmem)
    case isTrue =>
      cases hfirst
      rw [remember_singles, if_pos hmem]
      rfl

theorem learnLocked (found : Option Row) : c.Retains (c.learnLocked kind finder found) := by
  cases found
  case some row => exact ((remember row).trans (lock row.key)).trans (setSingle _)
  case none =>
    rw [Context.learnLocked]
    split
    case h_1 key _ => exact (lock key).trans (setSingle none)
    case h_2 => exact setSingle none

theorem learn (found : Option Row) : c.Retains (c.learn finder found) := by
  cases found
  case some row => exact (setSingle _).trans (remember row)
  case none => exact setSingle none

theorem foldl {f : Context → Row → Context} (hf : ∀ c row, Retains c (f c row)) :
    c.Retains (found.foldl f c) := by
  induction found generalizing c
  case nil => exact refl c
  case cons row found ih => exact (hf c row).trans ih

theorem learnList : c.Retains (c.learnList finder found) :=
  (foldl fun _ => remember).trans (setList _)

theorem learnLockedList : c.Retains (c.learnLockedList kind finder found) :=
  (foldl fun _ row => (remember row).trans (lock row.key)).trans (setList _)

end Retains

theorem knownAnswer?_isSome_iff : (c.knownAnswer? finder).isSome ↔
    (c.singles finder).isSome ∨ ∃ key, finder.key? = some key ∧ (c.rows key).isSome := by
  rw [knownAnswer?, knownSingle?]
  cases c.singles finder
  case some => simp
  case none => cases finder.key? <;> simp

theorem Retains.knownAnswer? (h : c.Retains c') (hc : (c.knownAnswer? finder).isSome) :
    (c'.knownAnswer? finder).isSome := by
  rw [knownAnswer?_isSome_iff] at hc ⊢
  exact hc.imp h.single fun ⟨key, hkey, hrow⟩ => ⟨key, hkey, h.row hrow⟩

theorem Retains.knownList? (h : c.Retains c') (hc : (c.knownList? finder).isSome) :
    (c'.knownList? finder).isSome := by
  rw [Context.knownList?, Option.isSome_map] at hc ⊢
  exact h.list hc

structure Informed (rows : Rows) (c : Context) : Prop extends c.Faithful rows where
  aliased : c.Aliased

namespace Informed

theorem new (rows : Rows) (tx : TxId) : (Context.new tx).Informed rows where
  toFaithful := .new rows tx
  aliased := nofun

theorem answer (h : c.Informed rows) (hknown : (c.knownAnswer? finder).isSome) :
    c.knownAnswer? finder = some (rows.lookup finder) := by
  obtain ⟨found, hfound⟩ := Option.isSome_iff_exists.mp hknown
  rw [hfound, h.knownAnswer? hfound]

theorem listed (h : c.Informed rows) (hknown : (c.knownList? finder).isSome) :
    c.knownList? finder = some (rows.lookupList finder) := by
  obtain ⟨found, hfound⟩ := Option.isSome_iff_exists.mp hknown
  rw [hfound, h.toReflects.knownList? hfound]

theorem mem (h : c.Informed rows) (hrow : c.Keeps row) : row ∈ rows.toList :=
  SortedBy.mem_of_find? (h.row hrow)

-- A row that is known answers all lookups that select it.
theorem answer_of_keeps (h : c.Informed rows) (hrow : c.Keeps row) (hsel : finder.selects row)
    (hnames : NamesApart rows.find?) : c.knownAnswer? finder = some (some row) := by
  have hsingle := h.aliased hrow (Row.mem_finders_of_selects hsel)
  rw [h.answer (knownAnswer?_isSome_iff.mpr (.inl hsingle)),
    Rows.lookup_of_selects hnames (h.mem hrow) hsel]

theorem keeps_of_answer (h : c.Informed rows) (hfound : c.knownAnswer? finder = some (some row)) :
    c.Keeps row := by
  obtain hsingle | ⟨key, found, hkey, hrow, heq⟩ := knownAnswer?_cases hfound
  · obtain ⟨key?, hkey, hrow⟩ := Option.map_eq_some_iff.mp hsingle
    obtain ⟨key, rfl, hrow⟩ := Option.bind_eq_some_iff.mp hrow
    obtain ⟨found, -, rfl, hknown⟩ := h.single hkey
    cases hrow.symm.trans hknown
    exact hrow
  · cases heq
    cases SortedBy.key_of_find? (h.row hrow)
    exact hrow

theorem keeps_of_list (h : c.Informed rows) (hfound : c.knownList? finder = some found)
    (hrow : row ∈ found) : c.Keeps row := by
  obtain ⟨keys, hkeys, -⟩ := Option.map_eq_some_iff.mp hfound
  rw [h.toReflects.knownList? hfound] at hrow
  exact (h.toReflects.list hkeys).2 row hrow

end Informed

end Context

variable {α β : Type} {rows : Rows} {m : Action α} {f : α → Action β} {c c' : Context} {s s' : Store}
  {r : Except Fault α} {kind : LockKind} {finder : Finder} {P Q : α → Context → Prop}
  {R : β → Context → Prop}

namespace Action

theorem ReadAlone.retains {known : Context → Option α} {answer : Store → Except Fault α × Store}
    {learn : Context → α → Context} (h : ReadAlone finder known answer learn c s r c' s')
    (hlearn : ∀ found, c.Retains (learn c found)) : c.Retains c' := by
  cases h
  case found => exact hlearn _
  all_goals exact .refl c

end Action

theorem Action.bind_retains
    (hm : ∀ {c s r c' s'}, RunsAlone (m c) s (r, c') s' → c.Retains c')
    (hf : ∀ a {c s r c' s'}, RunsAlone (f a c) s (r, c') s' → c.Retains c')
    {r : Except Fault β} (hrun : RunsAlone ((m >>= f) c) s (r, c') s') : c.Retains c' := by
  rw [Stage.bind_apply] at hrun
  obtain ⟨⟨x, c₁⟩, s₁, hfirst, hrest⟩ := hrun.of_bind
  cases x
  case ok a => exact (hm hfirst).trans (hf a hrest)
  case error fault =>
    obtain ⟨heq, -⟩ := hrest
    cases heq
    exact hm hfirst

theorem Reading.retains (h : Reading m) (hrun : RunsAlone (m c) s (r, c') s') : c.Retains c' := by
  induction h generalizing c s c' s'
  case pure | throw =>
    obtain ⟨heq, -⟩ := hrun
    cases heq
    exact .refl c
  case bind ihm ihf => exact Action.bind_retains ihm (fun a => ihf a) hrun
  case log =>
    obtain ⟨heq, -⟩ := RunsAlone.after_log hrun
    cases heq
    exact .refl c
  case lockFind => exact (Action.lockFind_alone hrun).retains fun found => .learnLocked found
  case lockList => exact (Action.lockList_alone hrun).retains fun _ => .learnLockedList
  case probe => exact (Action.probe_alone hrun).retains fun _ => .refl c
  case find => exact (Action.find_alone hrun).retains fun found => .learn found
  case findList => exact (Action.findList_alone hrun).retains fun _ => .learnList
  case lockListAlike ihf =>
    exact Action.bind_retains
      (fun h => (Action.lockList_alone h).retains fun _ => .learnLockedList) (fun a => ihf a) hrun

theorem Reading.informed (h : Reading m) (hnames : NamesApart rows.find?) (hc : c.Informed rows)
    (hs : s.rows = rows) (hrun : RunsAlone (m c) s (r, c') s') :
    c'.Informed rows ∧ s'.rows = rows := by
  obtain ⟨result, hsettles⟩ := h.exists_settles hnames
  obtain ⟨hc', hgives⟩ := hsettles.run hc.toFaithful hs hrun
  exact ⟨⟨hc', (h.retains hrun).aliased hc.aliased⟩, hgives.rows.trans hs⟩

namespace Action

-- If the work comes to an end, `P` says what it gives and what is known from then on.
structure Informs (rows : Rows) (m : Action α) (P : α → Context → Prop) : Prop where
  reading : Reading m
  tells {c c' c'' : Context} {s s' : Store} {a : α} : c.Informed rows → s.rows = rows →
    RunsAlone (m c) s (.ok a, c') s' → c''.Informed rows → c'.Retains c'' → P a c''

namespace Informs

theorem mono (h : Informs rows m P) (hPQ : ∀ a c, c.Informed rows → P a c → Q a c) :
    Informs rows m Q where
  reading := h.reading
  tells hc hs hrun hlast hretains := hPQ _ _ hlast (h.tells hc hs hrun hlast hretains)

theorem of_reading (h : Reading m) : Informs rows m fun _ _ => True where
  reading := h
  tells _ _ _ _ _ := trivial

theorem pure {a : α} (h : ∀ c, c.Informed rows → P a c) : Informs rows (pure a) P where
  reading := .pure
  tells _ _ hrun hlast _ := by
    obtain ⟨heq, -⟩ := hrun
    cases heq
    exact h _ hlast

-- What the first part has found out is still known when the rest is done.
theorem bind (hnames : NamesApart rows.find?) (hm : Informs rows m P)
    (hf : ∀ a, Informs rows (f a) fun b c => P a c → R b c) : Informs rows (m >>= f) R where
  reading := hm.reading.bind fun a => (hf a).reading
  tells hc hs hrun hlast hretains := by
    rw [Stage.bind_apply] at hrun
    obtain ⟨⟨r, c₁⟩, s₁, hfirst, hrest⟩ := hrun.of_bind
    cases r
    case error =>
      obtain ⟨heq, -⟩ := hrest
      cases heq
    case ok a =>
      obtain ⟨hc₁, hs₁⟩ := hm.reading.informed hnames hc hs hfirst
      refine (hf a).tells hc₁ hs₁ hrest hlast hretains ?_
      exact hm.tells hc hs hfirst hlast (((hf a).reading.retains hrest).trans hretains)

theorem bind_pure {b : α → β} (hnames : NamesApart rows.find?)
    (hm : Informs rows m fun a c => R (b a) c) : Informs rows (m >>= fun a => Pure.pure (b a)) R :=
  hm.bind hnames fun _ => .pure fun _ _ => id

theorem lockFind (hnames : NamesApart rows.find?) :
    Informs rows (lockFind kind finder) fun found c => c.knownAnswer? finder = some found where
  reading := .lockFind
  tells {c c' c'' s s' found} hc hs hrun hlast hretains := by
    obtain ⟨-, hgives⟩ := (Settles.lockFind hnames).run hc.toFaithful hs hrun
    obtain ⟨heq, -⟩ | ⟨_, -, hfault⟩ := hgives.given
    case inr => cases hfault
    cases heq
    refine hlast.answer (hretains.knownAnswer? (Context.knownAnswer?_isSome_iff.mpr ?_))
    cases lockFind_alone hrun
    case known hknown =>
      obtain ⟨key, -, hkey, -⟩ | ⟨key, row, -, hkey, hrow, -⟩ := Context.lockedAnswer?_cases hknown
      · exact .inl (by rw [hkey]; rfl)
      · exact .inr ⟨key, hkey, by rw [hrow]; rfl⟩
    case found =>
      refine .inl ?_
      cases rows.lookup finder
      case some row => simp [Context.learnLocked, Context.setSingle_singles]
      case none =>
        rw [Context.learnLocked]
        split <;> simp [Context.setSingle_singles]

theorem lockList (hnames : NamesApart rows.find?) :
    Informs rows (lockList kind finder) fun found c => c.knownList? finder = some found where
  reading := .lockList
  tells {c c' c'' s s' found} hc hs hrun hlast hretains := by
    obtain ⟨-, hgives⟩ := (Settles.lockList hnames).run hc.toFaithful hs hrun
    obtain ⟨heq, -⟩ | ⟨_, -, hfault⟩ := hgives.given
    case inr => cases hfault
    cases heq
    refine hlast.listed (hretains.knownList? ?_)
    cases lockList_alone hrun
    case known hknown =>
      rw [Context.knownList?_of_lockedList? hknown]
      rfl
    case found => simp [Context.knownList?, Context.learnLockedList, Context.setList]

-- However strongly the rows of a list are locked, the list is known.
theorem lockListAlike {key : Key} {f : List Row → Action β} (hnames : NamesApart rows.find?)
    (hf : ∀ found, Informs rows (f found) fun b c => c.knownList? finder = some found → R b c) :
    Informs rows (get >>= fun c =>
      Action.lockList ((c.locks.kindOf? key).getD .readCommitted) finder >>= f) R where
  reading := .lockListAlike fun found => (hf found).reading
  tells hc hs hrun hlast hretains :=
    ((lockList hnames).bind hnames hf).tells hc hs hrun hlast hretains

theorem mapM {P : α → β → Context → Prop} {l : List α} (hnames : NamesApart rows.find?)
    (hf : ∀ a, Informs rows (f a) (P a)) :
    Informs rows (l.mapM f) fun found c => List.Forall₂ (P · · c) l found := by
  induction l
  case nil => exact .pure fun _ _ => .nil
  case cons a l ih =>
    rw [List.mapM_cons]
    refine (hf a).bind hnames fun b => ih.bind hnames fun found => .pure fun _ _ hfound hb => ?_
    exact .cons hb hfound

theorem mapM_forall {P : β → Context → Prop} {l : List α} (hnames : NamesApart rows.find?)
    (hf : ∀ a, Informs rows (f a) P) :
    Informs rows (l.mapM f) fun found c => ∀ b ∈ found, P b c := by
  refine (mapM (P := fun _ => P) hnames hf).mono fun found c _ hfound => ?_
  induction hfound
  case nil => exact nofun
  case cons hfirst _ ih => exact List.forall_mem_cons.mpr ⟨hfirst, ih⟩

-- Each step keeps up what has been found out so far.
theorem foldlM {f : β → α → Action β} {I : List α → β → Context → Prop} {l : List α} {b : β}
    (hnames : NamesApart rows.find?)
    (hf : ∀ before a after b, l = before ++ a :: after →
      Informs rows (f b a) fun b' c => I before b c → I (before ++ [a]) b' c) :
    Informs rows (l.foldlM f b) fun b' c => I [] b c → I l b' c := by
  have hall (before after : List α) (b : β) (hl : l = before ++ after) :
      Informs rows (after.foldlM f b) fun b' c => I before b c → I l b' c := by
    induction after generalizing before b
    case nil =>
      rw [List.append_nil] at hl
      exact .pure fun _ _ h => hl ▸ h
    case cons a after ih =>
      refine (hf before a after b hl).bind hnames fun b₁ => ?_
      exact (ih (before ++ [a]) b₁ (by simp [hl])).mono fun _ _ _ hrest hstep h => hrest (hstep h)
  exact hall [] l b rfl

end Informs

end Action

end NamespaceService
