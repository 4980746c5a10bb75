import NamespaceService.Proofs.Namespace.Alone
import NamespaceService.Proofs.Namespace.Outcomes

namespace NamespaceService

open NamespaceService.Action Context Stage

namespace Context

variable {c : Context} {rows : Rows} {finder : Finder}

-- What has been looked up is as it is in the rows. There have been no changes, and no list has been
-- read.
structure Mirrors (rows : Rows) (c : Context) : Prop where
  unsealed : c.sealed = false
  changes : c.changes = []
  keyed : c.Keyed
  answers (finder : Finder) : c.Answers finder (rows.lookup finder) ∨ c.Unread finder
  lists (finder : Finder) : c.lists finder = none

namespace Mirrors

theorem new (rows : Rows) (tx : TxId) : (Context.new tx).Mirrors rows where
  unsealed := rfl
  changes := rfl
  keyed _ _ h := nomatch h
  answers _ := .inr ⟨rfl, fun _ => rfl⟩
  lists _ := rfl

theorem offers (h : c.Mirrors rows) (finder : Finder) :
    c.Offers (some rows) finder (rows.lookup finder) :=
  (h.answers finder).elim .known (.unread rfl h.unsealed)

theorem offersList (h : c.Mirrors rows) (finder : Finder) :
    c.OffersList (some rows) finder (rows.lookupList finder) :=
  .unread rfl h.unsealed (h.lists finder)

-- A row that is learned answers all its lookups; what is known of others is not touched.
theorem learn (h : c.Mirrors rows) (hnames : NamesApart rows.find?) (finder : Finder) :
    (c.learn finder (rows.lookup finder)).Mirrors rows where
  unsealed := (Edits.learn h.unsealed).sealed.trans h.unsealed
  changes := learn_changes.trans h.changes
  keyed := h.keyed.learn
  lists f := by
    rw [← h.lists f]
    cases rows.lookup finder <;> rfl
  answers f := by
    cases hfound : rows.lookup finder
    case none =>
      by_cases hf : f = finder
      case pos => exact .inl ⟨by rw [hf, hfound]; exact if_pos rfl, by simp [hf, hfound]⟩
      case neg =>
        have hsingle : (c.learn finder none).singles f = c.singles f := learn_singles hf (by simp)
        exact (h.answers f).imp (fun ha => ⟨hsingle.trans ha.single, ha.row⟩)
          fun hu => ⟨hsingle.trans hu.single, hu.row⟩
    case some row =>
      obtain ⟨hrow, hsel⟩ := Rows.mem_of_lookup hfound
      by_cases hf : f.selects row
      case pos =>
        rw [Rows.lookup_of_selects hnames hrow hf]
        refine .inl ⟨?_, fun heq => ?_⟩
        · rw [Context.learn, remember_singles, if_pos (Row.mem_finders_of_selects hf),
            setSingle_singles]
          split
          case isTrue => rfl
          case isFalse =>
            obtain ha | hu := h.answers f
            · rw [ha.single, Rows.lookup_of_selects hnames hrow hf]
              rfl
            · rw [hu.single]
              rfl
        · cases heq
          exact (remember_rows _).trans (if_pos rfl)
      case neg =>
        have hsingle : (c.learn finder (some row)).singles f = c.singles f := by
          refine learn_singles (fun heq => hf (heq ▸ hsel)) fun r hr hmem => hf ?_
          cases hr
          exact Row.selects_of_mem_finders hmem
        refine (h.answers f).imp (fun ha => ⟨hsingle.trans ha.single, fun {r} hr => ?_⟩)
          fun hu => ⟨hsingle.trans hu.single, fun {key} hkey => ?_⟩
        · refine (learn_rows fun r' hr' hkey => hf ?_).trans (ha.row hr)
          cases hr'
          have hr := Rows.mem_of_lookup hr
          exact SortedBy.eq_of_mem hr.1 hrow hkey ▸ hr.2
        · refine (learn_rows fun r' hr' hkey' => hf ?_).trans (hu.row hkey)
          cases hr'
          cases f <;> simp_all [Finder.key?, Finder.selects]

end Mirrors

end Context

namespace Rows

variable {rows : Rows} {dir : Node} {names : List String} {p : Position} {i : Nat}

-- The nodes on the way down from a node, as far as there are any.
def chainBelow (rows : Rows) : (dir : Node) → (names : List String) → List Node
  | _, [] => []
  | dir, name :: names =>
    match rows.entryNamed? dir name with
    | none => []
    | some n => n :: rows.chainBelow n names

theorem length_chainBelow_le : (rows.chainBelow dir names).length ≤ names.length := by
  induction names generalizing dir
  case nil => exact le_rfl
  case cons name names ih =>
    rw [chainBelow]
    split
    case h_1 => exact Nat.zero_le _
    case h_2 => exact Nat.succ_le_succ ih

theorem chainBelow_getElem? (hp : rows.place p = some dir) (hi : i ≤ names.length) :
    (dir :: rows.chainBelow dir names)[i]? = rows.place (p ++ names.take i) := by
  induction names generalizing dir p i
  case nil =>
    cases Nat.le_zero.mp hi
    simpa using hp.symm
  case cons name names ih =>
    cases i
    case zero => simpa using hp.symm
    case succ i =>
      have hentry : rows.place (p ++ [name]) = rows.entryNamed? dir name := by
        rw [place_concat, hp, Option.bind_some]
      rw [chainBelow, List.getElem?_cons_succ, List.take_succ_cons, List.append_cons]
      split
      case h_1 hnone =>
        rw [hnone] at hentry
        exact (place_none_of_above hentry (List.prefix_append ..)).symm
      case h_2 n hn => exact ih (hentry.trans hn) (Nat.le_of_succ_le_succ hi)

end Rows

namespace Namespace

variable {c : Context} {rows : Rows} {path holder source destination : String} {names : Position}
  {dir : Node}

section

variable (h : c.Mirrors rows) (hapart : NamesApart rows.find?)

include h hapart

theorem findNode_yields (finder : Finder) : ∃ c',
    YieldsTo (some rows) (findNode finder) c (.ok ((rows.lookup finder).bind Row.node?)) c' ∧
      c'.Mirrors rows ∧ c.Edits c' := by
  obtain ⟨c', hy, hc⟩ := find_yields (h.offers finder)
  refine ⟨c', .bind hy .pure, ?_⟩
  obtain rfl | ⟨ho, rfl⟩ := hc
  · exact ⟨h, .refl c'⟩
  · exact ⟨h.learn hapart finder, .learn ho⟩

theorem walkDown_yields (dir : Node) (names : List String) : ∃ c',
    YieldsTo (some rows) (walkDown dir names) c (.ok (rows.chainBelow dir names)) c' ∧
      c'.Mirrors rows ∧ c.Edits c' := by
  induction names generalizing dir c
  case nil => exact ⟨c, .pure, h, .refl c⟩
  case cons name names ih =>
    rw [walkDown, Rows.chainBelow, Rows.entryNamed?]
    by_cases hdir : dir.isDirectory
    case neg =>
      simp only [hdir]
      exact ⟨c, .pure, h, .refl c⟩
    case pos =>
      obtain ⟨c₁, hfind, h₁, hedits⟩ := findNode_yields h hapart (.nodeNamed dir.id name)
      simp only [hdir, Bool.not_true, Bool.false_eq_true, if_true, if_false]
      cases hn : (rows.lookup (.nodeNamed dir.id name)).bind Row.node?
      case none =>
        rw [hn] at hfind
        exact ⟨c₁, .bind hfind .pure, h₁, hedits⟩
      case some n =>
        rw [hn] at hfind
        obtain ⟨c₂, hwalk, h₂, hedits'⟩ := ih h₁ n
        exact ⟨c₂, .bind hfind (.bind hwalk .pure), h₂, hedits.trans hedits'⟩

theorem resolve_yields_free (hroot : rows.place [] = some .root)
    (hnames : Path.components path = .ok names) : ∃ c',
    YieldsTo (some rows) (resolve .empty path) c (.ok (.along rows.place names)) c' ∧
      c'.Mirrors rows ∧ c.Edits c' := by
  obtain ⟨c₁, hstart, h₁, hedits⟩ := findNode_yields h hapart (.node .root)
  obtain ⟨c₂, hwalk, h₂, hedits'⟩ := walkDown_yields h₁ hapart .root names
  refine ⟨c₂, ?_, h₂, hedits.trans hedits'⟩
  have hfound : (rows.lookup (.node .root)).bind Row.node? = some .root := hroot
  rw [hfound] at hstart
  have hchain : YieldsTo (some rows) (chainOf .empty path) c
      (.ok (.root :: rows.chainBelow .root names)) c₂ := by
    rw [chainOf, hnames]
    exact .bind .pure (.bind (.lift hstart) (.bind (.lift hwalk) .pure))
  rw [resolve, depth_eq hnames]
  refine .bind .pure (.bind hchain ?_)
  rw [← Resolution.of_chain (fun i hi => Rows.chainBelow_getElem? hroot hi)
    (Nat.succ_le_succ Rows.length_chainBelow_le)]
  exact .pure

end

theorem resolve_malformed {e : Path.PathError} (h : Path.components path = .error e) :
    YieldsTo (some rows) (resolve .empty path) c
      (.error (.failed (.store (.invalidRequest e.message)))) c := by
  rw [resolve, Path.depth, h]
  exact .throw

-- Work that starts with a path depends on where the path leads in the rows.
theorem follows_resolved {α : Type} {task : Task α} {rest : Resolution → Task α}
    {plan : Resolution → Except Stop (Effect α)} {tx : TxId} (hrows : rows.Hierarchy)
    (htask : task = resolve .empty path >>= rest)
    (h : ∀ r c, YieldsTo (some rows) (resolve .empty path) (.new tx) (.ok r) c → c.Mirrors rows →
      (Context.new tx).Edits c → Follows (some rows) task (.new tx) (plan r)) :
    Follows (some rows) task (.new tx) (resolveIn path rows >>= plan) := by
  cases hnames : Path.components path
  case error e =>
    rw [resolveIn_malformed hnames, htask]
    exact ⟨_, .bind_error (resolve_malformed hnames), .refl _, nofun⟩
  case ok names =>
    rw [resolveIn_eq hnames]
    obtain ⟨c, hresolve, hc, hedits⟩ :=
      resolve_yields_free (.new rows tx) hrows.namesApart hrows.place_nil hnames
    exact h _ c hresolve hc hedits

open UnitOfWork

section

variable {s : Store} {config : TransactionConfig} (hs : s.Calm) (hrows : s.rows.Hierarchy)
  (hfree : ¬config.rowLevelLock)

include hs hrows hfree

theorem MakeDirectory.comes_free :
    Comes config (makeDirectory path) s (outcome path s.rows) := by
  refine UnitOfWork.comes_free hs (fun _ => makeDirectory_reads) hfree
    (.bind .resolveIn fun _ => .makeNode) fun tx => follows_resolved hrows rfl ?_
  intro r c hresolve hc hedits
  exact follows hresolve hedits hc.changes hc.keyed (hc.offers _) fitting_lookup

theorem CreateFile.comes_free :
    Comes config (createFile path holder) s (outcome path holder s.rows) := by
  refine UnitOfWork.comes_free hs (fun _ => createFile_reads) hfree
    (.bind .resolveIn fun _ => .makeNode) fun tx => follows_resolved hrows rfl ?_
  intro r c hresolve hc hedits
  exact follows hresolve hedits hc.changes hc.keyed (hc.offers _) fitting_lookup (hc.offers _)
    fitting_lookup

theorem Delete.comes_free : Comes config (delete path) s (outcome path s.rows) := by
  refine UnitOfWork.comes_free hs (fun _ => delete_reads) hfree
    (.bind .resolveIn fun _ => .delete) fun tx => follows_resolved hrows rfl ?_
  intro r c hresolve hc hedits
  exact follows hresolve hedits hc.changes (fun _ _ _ => ⟨_, hc.offersList _, rfl⟩)
    fun _ _ _ _ => ⟨_, hc.offersList _, rfl⟩

theorem AddBlock.comes_free :
    Comes config (addBlock path holder) s (outcome path holder s.rows) := by
  refine UnitOfWork.comes_free hs (fun _ => addBlock_reads) hfree
    (.bind .resolveIn fun _ => .addBlock) fun tx => follows_resolved hrows rfl ?_
  intro r c hresolve hc hedits
  exact follows hresolve hedits hc.changes hc.keyed (hc.offers _) fitting_lookup (hc.offers _)
    fitting_lookup (hc.offers _) fitting_lookup

theorem fileInfo_comes_free : Comes config (fileInfo path) s (fileInfoOutcome path s.rows) := by
  refine UnitOfWork.comes_free hs Session.NamespaceOperation.fileInfo_reads hfree
    (.bind .resolveIn fun _ => .ok) fun tx => follows_resolved hrows rfl ?_
  intro r c hresolve hc hedits
  exact fileInfo_follows hresolve hedits hc.changes

theorem ListDirectory.comes_free :
    Comes config (listDirectory path) s (outcome path s.rows) := by
  refine UnitOfWork.comes_free hs (fun _ => listDirectory_reads) hfree
    (.bind .resolveIn fun _ => .listDirectory) fun tx => follows_resolved hrows rfl ?_
  intro r c hresolve hc hedits
  exact follows hresolve hedits hc.changes fun _ _ _ => ⟨_, hc.offersList _, rfl⟩

theorem Rename.comes_free :
    Comes config (rename source destination) s (outcome source destination s.rows) := by
  refine UnitOfWork.comes_free hs (fun _ => rename_reads) hfree
    (.bind .namesOf fun _ => .bind .namesOf fun _ => .rename) fun tx => ?_
  cases hstart : Path.components source
  case error e =>
    rw [outcome, namesOf_malformed hstart, task, hstart]
    exact ⟨_, .bind_error .throw, .refl _, fun _ heq => by cases heq⟩
  case ok start =>
    cases hgoal : Path.components destination
    case error e =>
      rw [outcome, namesOf_eq hstart, namesOf_malformed hgoal, task, hstart, hgoal]
      exact ⟨_, .bind .pure (.bind_error .throw), .refl _, fun _ heq => by cases heq⟩
    case ok goal =>
      obtain ⟨c₁, hresolve, h₁, hedits⟩ :=
        resolve_yields_free (.new s.rows tx) hrows.namesApart hrows.place_nil hstart
      obtain ⟨c₂, hresolve', h₂, hedits'⟩ :=
        resolve_yields_free h₁ hrows.namesApart hrows.place_nil hgoal
      rw [outcome_eq hstart hgoal]
      exact follows hstart hgoal hresolve hedits h₁.changes hresolve' hedits' h₂.changes

end

end Namespace

end NamespaceService
