import NamespaceService.Proofs.Namespace.Arranged
import NamespaceService.Proofs.Namespace.Modes

namespace NamespaceService

open Namespace

namespace Namespace

variable {rows : Rows} {path : String} {p : Position} {dir : Node} {r : Resolution}
  {place : Position → Option Node}

theorem Resolution.directory_of_parent (hparent : r.parent = some dir) (hdir : dir.isDirectory) :
    r.directory path = .ok dir := by
  simp [directory, hparent, hdir]

theorem Resolution.directory_refused (h : ∀ dir, r.parent = some dir → ¬dir.isDirectory) :
    ∃ error, r.directory path = refuse error := by
  cases hparent : r.parent
  case none => exact ⟨_, by rw [directory, hparent]⟩
  case some dir => exact ⟨.notADirectory dir.name, by simp [directory, hparent, h dir hparent]⟩

theorem leafOf_append {q : Position} {name : String} (hp : Path.components path = .ok (q ++ [name])) :
    leafOf path = .ok name := by
  simp [leafOf, Path.basename?, hp]

theorem directory_refused_of_not_free (h : rows.Arranged) (path : String)
    (hnone : rows.place p = none) (hfree : ¬(rows.tree h).Free p) :
    ∃ error, (Resolution.along rows.place p).directory path = refuse error := by
  refine Resolution.directory_refused fun dir hparent hkind => hfree ?_
  obtain ⟨hne, hdir⟩ := along_parent_eq_some hparent
  exact (Rows.free_iff h).mpr ⟨hnone, hne, dir, hdir, hkind⟩

theorem ListDirectory.mem_sortNames_iff {names : List String} {name : String} :
    name ∈ sortNames names ↔ name ∈ names :=
  (List.mergeSort_perm ..).mem_iff

theorem ListDirectory.sortNames_sorted {names : List String} (h : names.Nodup) :
    (sortNames names).Pairwise Ranked.Before := by
  have hsorted : (sortNames names).Pairwise fun a b => !Ranked.Before b a :=
    List.pairwise_mergeSort (fun a b c hab hbc => ?_) (fun a b => ?_) names
  case refine_1 =>
    have hab : ¬Ranked.Before b a := by simpa using hab
    have hbc : ¬Ranked.Before c b := by simpa using hbc
    obtain hlt | rfl | hlt := Ranked.Before.trichotomy a b
    · simpa using fun hca : Ranked.Before c a => hbc (hca.trans hlt)
    · simpa using hbc
    · exact absurd hlt hab
  case refine_2 =>
    by_cases hba : Ranked.Before b a <;> simp [hba, Ranked.Before.asymm]
  have hnodup : (sortNames names).Nodup := (List.mergeSort_perm ..).nodup_iff.mpr h
  refine (hsorted.and hnodup).imp fun ⟨hle, hne⟩ => ?_
  exact Ranked.Before.of_not (by simpa using hle) (Ne.symm hne)

-- A free path makes a node, unless the ids are at their end; any other one is refused.
theorem makeNode_cases (h : rows.Arranged) (kind : NodeKind) (more : List Change)
    (hp : Path.components path = .ok p) :
    (∃ q name dir value id, p = q ++ [name] ∧ rows.place q = some dir ∧ dir.isDirectory ∧
      rows.counterAt .nodeIdCounter value ∧ Counter.next? value = some id ∧
      makeNode path kind (.along rows.place p) (counterIn .nodeIdCounter rows) more =
        .ok ⟨⟨id⟩, [.upsert (.register ⟨.nodeIdCounter, id⟩),
          .upsert (.node ⟨⟨id⟩, dir.id, name, kind, []⟩)] ++ more⟩) ∧ (rows.tree h).Free p ∨
      ¬(rows.tree h).Free p ∧ (∃ error, makeNode path kind (.along rows.place p)
        (counterIn .nodeIdCounter rows) more = refuse error) ∨
      (rows.tree h).Free p ∧ ¬rows.Spare ∧ makeNode path kind (.along rows.place p)
        (counterIn .nodeIdCounter rows) more = .error .overflow := by
  by_cases hfree : (rows.tree h).Free p
  case pos =>
    obtain ⟨hnone, hne, dir, hdir, hkind⟩ := (Rows.free_iff h).mp hfree
    obtain ⟨q, name, rfl⟩ := (List.eq_nil_or_concat' _).resolve_left hne
    have hparent : (Resolution.along rows.place (q ++ [name])).parent = some dir :=
      (along_parent hne).trans hdir
    have hmake : makeNode path kind (.along rows.place (q ++ [name]))
        (counterIn .nodeIdCounter rows) more =
        (successor .nodeIdCounter (counterIn .nodeIdCounter rows)).map fun id =>
          ⟨⟨id⟩, [.upsert (.register ⟨.nodeIdCounter, id⟩),
            .upsert (.node ⟨⟨id⟩, dir.id, name, kind, []⟩)] ++ more⟩ := by
      rw [makeNode, if_neg (by simp [Resolution.along, hnone]),
        Resolution.directory_of_parent hparent hkind, leafOf_append hp]
      cases successor .nodeIdCounter (counterIn .nodeIdCounter rows) <;> rfl
    obtain ⟨counter, hcounter, -⟩ := h.numbered.node
    obtain ⟨value, id, hvalue, hnext, hsucc⟩ | ⟨hspare, hsucc⟩ :=
      Rows.successor_cases ⟨counter, hcounter⟩
    all_goals rw [hsucc] at hmake
    · rw [List.dropLast_concat] at hdir
      exact .inl ⟨⟨q, name, dir, value, id, rfl, hdir, hkind, hvalue, hnext, hmake⟩, hfree⟩
    · exact .inr (.inr ⟨hfree, hspare, hmake⟩)
  case neg =>
    refine .inr (.inl ⟨hfree, ?_⟩)
    by_cases hnone : rows.place p = none
    case neg => exact ⟨_, makeNode_taken (Option.isSome_iff_ne_none.mpr hnone)⟩
    case pos =>
      obtain ⟨error, herror⟩ := directory_refused_of_not_free h path hnone hfree
      exact ⟨error, makeNode_misplaced hnone herror⟩

theorem Rename.plan_moved {source destination name : String} {start q : Position} {n : Node}
    (hgoal : Path.components destination = .ok (q ++ [name])) (hne : start ≠ [])
    (hout : ¬start <+: q ++ [name]) (hn : rows.place start = some n)
    (hfree : rows.place (q ++ [name]) = none) (hdir : rows.place q = some dir)
    (hdirectory : dir.isDirectory) :
    plan source destination start (q ++ [name]) (.along rows.place start)
      (.along rows.place (q ++ [name])) =
        .ok ⟨(), [.upsert (.node { n with parent := dir.id, name })]⟩ := by
  have hroot : ¬(start = [] ∨ q ++ [name] = []) := by simp [hne]
  have hapart : ¬(start.length < (q ++ [name]).length ∧ start.isPrefixOf (q ++ [name])) :=
    fun hin => hout (List.isPrefixOf_iff_prefix.mp hin.2)
  have hsame : start ≠ q ++ [name] := fun heq => hout (heq ▸ List.prefix_rfl)
  have htarget : (Resolution.along rows.place start).target = some n := hn
  have hparent : (Resolution.along rows.place (q ++ [name])).parent = some dir := by
    rw [along_parent (by simp), List.dropLast_concat, hdir]
  rw [plan, if_neg hroot, if_neg hapart]
  simp only [htarget, if_neg hsame]
  rw [if_neg (by simp [Resolution.along, hfree]), Resolution.directory_of_parent hparent hdirectory,
    leafOf_append hgoal]
  rfl

-- On a file that the holder has leased, a block is added, unless a counter is at its end.
theorem AddBlock.plan_leased {holder : String} {file : Node} {lease : Option Lease}
    (h : rows.Arranged) (hn : rows.place p = some file) (hfile : file.isFile)
    (hlease : lease.any (·.covers path)) :
    (∃ value id stamp, rows.counterAt .blockIdCounter value ∧ Counter.next? value = some id ∧
      plan path holder (.along rows.place p) lease (counterIn .blockIdCounter rows)
        (counterIn .generationStamp rows) =
          .ok ⟨.fresh ⟨id⟩ file.id stamp, [.upsert (.register ⟨.blockIdCounter, id⟩),
            .upsert (.register ⟨.generationStamp, stamp⟩),
            .upsert (.node { file with blocks := file.blocks ++ [⟨id⟩] }),
            .upsert (.block (.fresh ⟨id⟩ file.id stamp))]⟩) ∨
      ¬rows.Spare ∧ plan path holder (.along rows.place p) lease (counterIn .blockIdCounter rows)
        (counterIn .generationStamp rows) = .error .overflow := by
  have htarget : (Resolution.along rows.place p).target = some file := hn
  simp only [plan, htarget, hfile, hlease, Bool.not_true, Bool.false_eq_true, if_false]
  obtain ⟨blocks, hblocks, -⟩ := h.numbered.block
  obtain ⟨value, id, hcounter, hnext, hid⟩ | ⟨hspare, hid⟩ := Rows.successor_cases ⟨blocks, hblocks⟩
  case inr =>
    rw [hid]
    exact .inr ⟨hspare, rfl⟩
  obtain ⟨_, stamp, -, -, hstamp⟩ | ⟨hspare, hstamp⟩ := Rows.successor_cases h.stamp
  case inr =>
    rw [hid, hstamp]
    exact .inr ⟨hspare, rfl⟩
  rw [hid, hstamp]
  exact .inl ⟨value, id, stamp, hcounter, hnext, rfl⟩

-- Without a file or a lease, none is.
theorem AddBlock.plan_refused {holder : String} {lease : Option Lease} {block stamp : Option UInt64}
    (h : ¬(lease.any (·.covers path) ∧ ∃ n, r.target = some n ∧ n.isFile)) :
    ∃ error, plan path holder r lease block stamp = refuse error := by
  cases hn : r.target
  case none => exact ⟨_, plan_missing hn⟩
  case some n =>
    by_cases hfile : n.isFile
    case neg => exact ⟨_, plan_misfit hn hfile⟩
    case pos => exact ⟨_, plan_unleased hn hfile fun hlease => h ⟨hlease, n, hn, hfile⟩⟩

end Namespace

namespace Session.NamespaceOperation

open UnitOfWork

variable {rows : Rows} {path holder source destination : String} {p : Position}
  {op : NamespaceOperation} {failure : Failure}

-- What the operation comes to is a step of the tree.
def Carries (h : rows.Arranged) (op : NamespaceOperation) (outcome : Except Stop (Effect Value)) :
    Prop :=
  ∃ h' : (rowsAfter rows outcome).Arranged,
    (rows.tree h).Step op (outcome.map Effect.result) ((rowsAfter rows outcome).tree h')

-- It would be one, but a counter is at its last value.
structure Overflows (h : rows.Arranged) (op : NamespaceOperation)
    (outcome : Except Stop (Effect Value)) : Prop where
  spent : ¬rows.Spare
  allowed : (rows.tree h).Allows op
  outcome_eq : outcome = .error .overflow

theorem Carries.refused {h : rows.Arranged} (hop : ¬(rows.tree h).Allows op) :
    Carries h op (.error (.failed failure)) :=
  ⟨h, .refused hop⟩

theorem Carries.malformed {h : rows.Arranged} {error : Path.PathError}
    (hp : Path.components path = .error error)
    (hop : (rows.tree h).Allows op → ∃ p, Path.components path = .ok p) :
    Carries h op (.error (.failed failure)) := by
  refine .refused fun hallows => ?_
  obtain ⟨p, hp'⟩ := hop hallows
  cases hp.symm.trans hp'

theorem Carries.still {h : rows.Arranged} {value : Value}
    (hstep : (rows.tree h).Step op (.ok value) (rows.tree h)) : Carries h op (.ok ⟨value, []⟩) :=
  ⟨h, hstep⟩

theorem leaseIn_applyAll {changes : List Change}
    (hchanges : ∀ change ∈ changes, change.key ≠ .lease holder) :
    leaseIn holder (rows.applyAll changes) = leaseIn holder rows := by
  rw [leaseIn, leaseIn, Rows.lookup_of_key? rfl, Rows.lookup_of_key? rfl, Rows.find?_applyAll hchanges]

theorem leased_eq {rows' : Rows} (h : rows.Arranged) (h' : rows'.Arranged)
    (hlease : ∀ holder, leaseIn holder rows' = leaseIn holder rows) :
    (rows'.tree h').leased = (rows.tree h).leased := by
  funext holder path
  simp only [Rows.tree, hlease]

theorem leaseIn_written {changes : List Change} (lease : Lease)
    (hchanges : ∀ change ∈ changes, ∀ holder, change.key ≠ .lease holder) :
    leaseIn holder (rows.applyAll (changes ++ [.upsert (.lease lease)])) =
      if holder = lease.holder then some lease else leaseIn holder rows := by
  by_cases hholder : holder = lease.holder
  case pos =>
    have hfind : (rows.applyAll (changes ++ [.upsert (.lease lease)])).find? (.lease lease.holder) =
        some (.lease lease) := Rows.find?_applyAll_upsert changes (by simp)
    rw [if_pos hholder, leaseIn, Rows.lookup_of_key? rfl, hholder, hfind]
    rfl
  case neg =>
    rw [if_neg hholder]
    refine leaseIn_applyAll fun change hc => ?_
    obtain hc | hc := List.mem_append.mp hc
    · exact hchanges change hc holder
    · rw [List.mem_singleton.mp hc]
      exact fun heq => hholder (Key.lease.inj heq).symm

-- The operations that make a node.
theorem carries_made (h : rows.Arranged) {kind : NodeKind}
    (more : List Change) (hkind : kind = .directory ∨ kind = .file)
    (hmore : ∀ change ∈ more, ∃ lease, change = .upsert (.lease lease) ∧ rows.Extends lease)
    (houtcome : op.outcome false rows = (resolveIn path rows >>= fun r =>
      makeNode path kind r (counterIn .nodeIdCounter rows) more).map (effectOf .id))
    (hallows : (rows.tree h).Allows op ↔
      ∃ p, Path.components path = .ok p ∧ (rows.tree h).Free p)
    (hstep : ∀ p id changes (h' : (rows.applyAll (changes ++ more)).Arranged),
      Path.components path = .ok p → (rows.tree h).Free p →
      ((rows.applyAll (changes ++ more)).tree h').entry =
        Function.update (rows.tree h).entry p (some ⟨id, kind, []⟩) →
      (∀ change ∈ changes, ∀ holder, change.key ≠ .lease holder) →
      (rows.tree h).Step op (.ok (.id id)) ((rows.applyAll (changes ++ more)).tree h')) :
    Carries h op (op.outcome false rows) ∨ Overflows h op (op.outcome false rows) := by
  rw [houtcome]
  cases hp : Path.components path
  case error e =>
    rw [resolveIn_malformed hp]
    exact .inl (.malformed hp fun hop => (hallows.mp hop).imp fun _ hop => hop.1)
  case ok p =>
    rw [resolveIn_eq hp]
    have hbind : (Except.ok (.along rows.place p) >>= fun r =>
        makeNode path kind r (counterIn .nodeIdCounter rows) more) =
        makeNode path kind (.along rows.place p) (counterIn .nodeIdCounter rows) more := rfl
    rw [hbind]
    obtain ⟨⟨q, name, dir, value, id, rfl, hdir, hd, hcounter, hnext, hmade⟩, hfree⟩ |
      ⟨hfree, error, hmade⟩ | ⟨hfree, hspare, hmade⟩ := makeNode_cases h kind more hp
    case inl =>
      rw [hmade]
      left
      obtain ⟨h', hplace⟩ := h.make more hdir hd ((Rows.free_iff h).mp hfree).1 hcounter hnext hkind
        hmore
      refine ⟨h', hstep _ _ _ h' hp hfree (Rows.tree_entry_update h hplace) ?_⟩
      simp [Change.key, Row.key]
    case inr.inl =>
      rw [hmade]
      refine .inl (.refused fun hop => ?_)
      obtain ⟨_, hp', hfree'⟩ := hallows.mp hop
      cases hp.symm.trans hp'
      exact hfree hfree'
    case inr.inr =>
      rw [hmade]
      exact .inr ⟨hspare, hallows.mpr ⟨p, hp, hfree⟩, rfl⟩

theorem makeDirectory_carries (h : rows.Arranged) :
    Carries h (.makeDirectory path) (outcome false rows (.makeDirectory path)) ∨
      Overflows h (.makeDirectory path) (outcome false rows (.makeDirectory path)) := by
  refine carries_made h [] (.inl rfl) (by simp) rfl .rfl ?_
  intro p id changes h' hp hfree hentry hchanges
  refine .makeDirectory hp hfree hentry (leased_eq h h' fun holder => leaseIn_applyAll ?_)
  simpa using fun change hc => hchanges change hc holder

theorem createFile_carries (h : rows.Arranged) :
    Carries h (.createFile path holder) (outcome false rows (.createFile path holder)) ∨
      Overflows h (.createFile path holder) (outcome false rows (.createFile path holder)) := by
  refine carries_made h _ (.inr rfl) (fun change hc => ?_) rfl .rfl ?_
  case refine_1 => exact ⟨_, List.mem_singleton.mp hc, withPath_extends⟩
  case refine_2 =>
    intro p id changes h' hp hfree hentry hchanges
    refine .createFile hp hfree hentry fun other q => ?_
    simp only [Rows.tree, leaseIn_written _ hchanges]
    have hholder : (((leaseIn holder rows).getD (.new holder)).withPath path).holder = holder :=
      leaseOf_holder
    rw [hholder]
    by_cases hother : other = holder
    case neg => simp [hother]
    case pos =>
      subst hother
      have hnew : ((leaseIn other rows).getD (.new other)).covers q ↔
          (leaseIn other rows).any (·.covers q) := by
        cases leaseIn other rows <;> simp [Lease.covers, Lease.new, SortedBy.contains, SortedBy.empty]
      simp [covers_withPath_iff, hnew]

theorem Delete.plan_removable (path : String) {p : Position} {n : Node}
    (hn : rows.place p = some n) (hbelow : ¬n.isRoot)
    (hempty : n.isDirectory → childrenIn rows n.id = []) :
    Delete.plan path (.along rows.place p) (childrenIn rows) (blocksIn rows) =
      .ok ⟨true, (if n.isDirectory then [] else blocksIn rows n.id).map
        (fun block => .remove (.block block.id)) ++ [.remove (.node n.id)]⟩ := by
  by_cases hdir : n.isDirectory <;> simp_all [Delete.plan, Resolution.along]

theorem Delete.plan_stuck (h : rows.Arranged) (path : String) {p : Position} {n : Node}
    (hn : rows.place p = some n) (hstuck : ¬(rows.tree h).Removable p) :
    ∃ error, Delete.plan path (.along rows.place p) (childrenIn rows) (blocksIn rows) =
      refuse error := by
  by_cases hroot : n.isRoot
  case pos => exact ⟨_, Delete.plan_root hn hroot⟩
  case neg =>
    have hfull : n.isDirectory ∧ childrenIn rows n.id ≠ [] := by
      by_contra! hempty
      exact hstuck ((Rows.removable_iff h).mpr ⟨n, hn, hroot, hempty⟩)
    exact ⟨.directoryNotEmpty path, by simp [Delete.plan, Resolution.along, hn, hroot, hfull]⟩

theorem delete_carries (h : rows.Arranged) :
    Carries h (.delete path) (outcome false rows (.delete path)) := by
  cases hp : Path.components path
  case error e =>
    rw [outcome, if_neg (by simp), Delete.outcome, resolveIn_malformed hp]
    refine .malformed hp ?_
    rintro ⟨_, hp', -⟩
    exact ⟨_, hp'⟩
  case ok p =>
    rw [outcome, if_neg (by simp), Delete.outcome_eq hp]
    cases hn : rows.place p
    case none =>
      rw [Delete.plan_missing hn]
      exact .still (.deleteMissing hp (by simp [Rows.tree, hn]))
    case some n =>
      have hentry : (rows.tree h).entry p ≠ none := by simp [Rows.tree, hn]
      by_cases hremovable : (rows.tree h).Removable p
      case pos =>
        obtain ⟨n', hn', hbelow, hempty⟩ := (Rows.removable_iff h).mp hremovable
        cases hn.symm.trans hn'
        rw [Delete.plan_removable path hn hbelow hempty]
        obtain ⟨h', hplace⟩ := h.drop (if n.isDirectory then [] else blocksIn rows n.id) hn hbelow hempty
        refine ⟨h', .delete hp hremovable (Rows.tree_entry_update h hplace) ?_⟩
        refine leased_eq h h' fun holder => leaseIn_applyAll fun change hc => ?_
        obtain hc | hc := List.mem_append.mp hc
        · obtain ⟨block, -, rfl⟩ := List.mem_map.mp hc
          simp [Change.key]
        · rw [List.mem_singleton.mp hc]
          simp [Change.key]
      case neg =>
        obtain ⟨error, hplan⟩ := Delete.plan_stuck h path hn hremovable
        rw [hplan]
        refine .refused ?_
        rintro ⟨_, hp', hnone | hremovable'⟩ <;> cases hp.symm.trans hp'
        · exact hentry hnone
        · exact hremovable hremovable'

theorem rename_refused (h : rows.Arranged) (source destination : String) {start goal : Position}
    (hmovable : ¬(rows.tree h).Movable start goal) :
    ∃ error, Rename.plan source destination start goal (.along rows.place start)
      (.along rows.place goal) = refuse error := by
  by_cases hroot : start = [] ∨ goal = []
  case pos => exact ⟨_, if_pos hroot⟩
  by_cases hin : start.length < goal.length ∧ start.isPrefixOf goal
  case pos => exact ⟨_, (if_neg hroot).trans (if_pos hin)⟩
  rw [Rename.plan, if_neg hroot, if_neg hin]
  cases hn : rows.place start
  case none => exact ⟨.notFound source, by simp [Resolution.along, hn]⟩
  case some n =>
    rw [not_or] at hroot
    have hout : ¬(start <+: goal ∧ start ≠ goal) := by
      rintro ⟨habove, hne⟩
      refine hin ⟨?_, List.isPrefixOf_iff_prefix.mpr habove⟩
      exact lt_of_le_of_ne habove.length_le fun heq => hne (habove.eq_of_length heq)
    have hstuck : ¬(goal = start ∨ (rows.tree h).Free goal) := fun hfree =>
      hmovable ⟨by simp [Rows.tree, hn], hroot.1, hroot.2, hout, hfree⟩
    rw [not_or] at hstuck
    have htarget : (Resolution.along rows.place start).target = some n := hn
    simp only [htarget, if_neg (Ne.symm hstuck.1)]
    by_cases hnone : rows.place goal = none
    case neg => exact ⟨_, if_pos (Option.isSome_iff_ne_none.mpr hnone)⟩
    case pos =>
      obtain ⟨error, herror⟩ := directory_refused_of_not_free h destination hnone hstuck.2
      refine ⟨error, (if_neg (by simp [Resolution.along, hnone])).trans ?_⟩
      rw [herror]
      rfl

theorem rename_carries (h : rows.Arranged) :
    Carries h (.rename source destination) (outcome false rows (.rename source destination)) := by
  rw [outcome]
  cases hstart : Path.components source
  case error e =>
    rw [Rename.outcome, namesOf_malformed hstart]
    refine .malformed hstart ?_
    rintro ⟨_, _, hstart', -⟩
    exact ⟨_, hstart'⟩
  case ok start =>
    cases hgoal : Path.components destination
    case error e =>
      rw [Rename.outcome, namesOf_eq hstart, namesOf_malformed hgoal]
      refine .malformed hgoal ?_
      rintro ⟨_, _, _, hgoal', -⟩
      exact ⟨_, hgoal'⟩
    case ok goal =>
      rw [Rename.outcome_eq hstart hgoal]
      by_cases hmovable : (rows.tree h).Movable start goal
      case neg =>
        obtain ⟨error, hplan⟩ := rename_refused h source destination hmovable
        rw [hplan]
        refine .refused ?_
        rintro ⟨_, _, hstart', hgoal', hmovable'⟩
        cases hstart.symm.trans hstart'
        cases hgoal.symm.trans hgoal'
        exact hmovable hmovable'
      case pos =>
        obtain ⟨hn, hne, hne', hout, hfree⟩ := id hmovable
        obtain ⟨n, hn⟩ : ∃ n, rows.place start = some n := by
          simpa [Rows.tree, Option.isSome_iff_exists] using hn
        by_cases hsame : start = goal
        case pos =>
          subst hsame
          have hplan : Rename.plan source destination start start (.along rows.place start)
              (.along rows.place start) = .ok ⟨(), []⟩ := by
            simp [Rename.plan, hne, Resolution.along, hn]
          rw [hplan]
          exact .still (.rename hstart hgoal hmovable FileTree.move_self.symm rfl)
        case neg =>
          obtain ⟨hnone, -, dir, hdir, hkind⟩ :=
            (Rows.free_iff h).mp (hfree.resolve_left (Ne.symm hsame))
          obtain ⟨q, name, rfl⟩ := (List.eq_nil_or_concat' _).resolve_left hne'
          rw [List.dropLast_concat] at hdir
          have hbelow : ¬n.isRoot := fun hroot =>
            hne (Rows.place_injective hn h.hierarchy.place_nil (Rows.isRoot_iff.mp hroot))
          have hout : ¬start <+: q ++ [name] := fun habove => hout ⟨habove, hsame⟩
          rw [Rename.plan_moved hgoal hne hout hn hnone hdir hkind]
          obtain ⟨h', hplace⟩ := h.move hn hbelow hdir hkind hnone hout
          refine ⟨h', .rename hstart hgoal hmovable (Rows.tree_entry_relocate h hn hplace rfl) ?_⟩
          exact leased_eq h h' fun holder => leaseIn_applyAll (by simp [Change.key, Row.key])

theorem addBlock_carries (h : rows.Arranged) :
    Carries h (.addBlock path holder) (outcome false rows (.addBlock path holder)) ∨
      Overflows h (.addBlock path holder) (outcome false rows (.addBlock path holder)) := by
  rw [outcome]
  cases hp : Path.components path
  case error e =>
    rw [AddBlock.outcome, resolveIn_malformed hp]
    refine .inl (.malformed hp ?_)
    rintro ⟨_, _, hp', -⟩
    exact ⟨_, hp'⟩
  case ok p =>
    rw [AddBlock.outcome_eq hp]
    by_cases hallows : (leaseIn holder rows).any (·.covers path) ∧
      ∃ n, rows.place p = some n ∧ n.isFile
    case neg =>
      obtain ⟨error, hplan⟩ : ∃ error, AddBlock.plan path holder (.along rows.place p) _ _ _ = _ :=
        AddBlock.plan_refused hallows
      rw [hplan]
      refine .inl (.refused ?_)
      rintro ⟨hlease, _, hp', hfile⟩
      cases hp.symm.trans hp'
      exact hallows ⟨hlease, (Rows.isFile_iff h).mp hfile⟩
    case pos =>
      obtain ⟨hlease, n, hn, hfile⟩ := hallows
      have hleased : (rows.tree h).leased holder path := hlease
      obtain ⟨value, id, stamp, hcounter, hnext, hplan⟩ | ⟨hspare, hplan⟩ :=
        AddBlock.plan_leased h hn hfile hlease
      case inl =>
        rw [hplan]
        obtain ⟨h', hplace⟩ := h.append stamp hn hfile hcounter hnext
        refine .inl ⟨h', .addBlock hp (congrArg (Option.map Node.entry) hn) (of_decide_eq_true hfile)
          hleased rfl (Rows.tree_entry_update h hplace) ?_⟩
        exact leased_eq h h' fun holder => leaseIn_applyAll (by simp [Change.key, Row.key])
      case inr =>
        rw [hplan]
        exact .inr ⟨hspare, ⟨hleased, p, hp, (Rows.isFile_iff h).mpr ⟨n, hn, hfile⟩⟩, rfl⟩

theorem fileInfo_carries (h : rows.Arranged) :
    Carries h (.fileInfo path) (outcome false rows (.fileInfo path)) := by
  rw [outcome]
  cases hp : Path.components path
  case error e =>
    rw [fileInfoOutcome, resolveIn_malformed hp]
    exact .malformed hp id
  case ok p =>
    rw [fileInfoOutcome_eq hp]
    exact .still (Rows.tree_node? h ▸ .fileInfo hp)

theorem listDirectory_carries (h : rows.Arranged) :
    Carries h (.listDirectory path) (outcome false rows (.listDirectory path)) := by
  rw [outcome]
  cases hp : Path.components path
  case error e =>
    rw [ListDirectory.outcome, resolveIn_malformed hp]
    refine .malformed hp ?_
    rintro ⟨_, hp', -⟩
    exact ⟨_, hp'⟩
  case ok p =>
    rw [ListDirectory.outcome_eq hp]
    by_cases hdir : (rows.tree h).IsDirectory p
    case neg =>
      obtain ⟨error, hplan⟩ : ∃ error, ListDirectory.plan path (.along rows.place p)
          (childrenIn rows) = refuse error := by
        cases hn : rows.place p
        case none => exact ⟨_, ListDirectory.plan_missing hn⟩
        case some n =>
          have hkind : ¬n.isDirectory := fun hkind =>
            hdir ((Rows.isDirectory_iff h).mpr ⟨n, hn, hkind⟩)
          exact ⟨.notADirectory path, by simp [ListDirectory.plan, Resolution.along, hn, hkind]⟩
      rw [hplan]
      refine .refused ?_
      rintro ⟨_, hp', hdir'⟩
      cases hp.symm.trans hp'
      exact hdir hdir'
    case pos =>
      obtain ⟨n, hn, hkind⟩ := (Rows.isDirectory_iff h).mp hdir
      have hplan : ListDirectory.plan path (.along rows.place p) (childrenIn rows) =
          .ok ⟨ListDirectory.sortNames ((childrenIn rows n.id).map Node.name), []⟩ := by
        simp [ListDirectory.plan, Resolution.along, hn, hkind]
      rw [hplan]
      refine .still (.listDirectory hp hdir ?_ fun name => ?_)
      · refine ListDirectory.sortNames_sorted (Rows.nodup_childrenIn.map_on fun k hk m hm hname => ?_)
        have hk := (h.hierarchy.mem_childrenIn_iff hn hkind).mp hk
        have hm := (h.hierarchy.mem_childrenIn_iff hn hkind).mp hm
        exact Option.some.inj (hk.symm.trans (hname ▸ hm))
      · rw [ListDirectory.mem_sortNames_iff, Rows.tree, Option.isSome_map, List.mem_map]
        constructor
        case mp =>
          rintro ⟨k, hk, rfl⟩
          exact Option.isSome_iff_exists.mpr
            ⟨k, (h.hierarchy.mem_childrenIn_iff hn hkind).mp hk⟩
        case mpr =>
          intro hsome
          obtain ⟨k, hk⟩ := Option.isSome_iff_exists.mp hsome
          obtain ⟨_, -, -, -, -, -, rfl⟩ := Rows.entry_of_place hk
          exact ⟨k, (h.hierarchy.mem_childrenIn_iff hn hkind).mpr hk, rfl⟩

theorem outcome_carries (h : rows.Arranged) (op : NamespaceOperation) :
    Carries h op (op.outcome false rows) ∨ Overflows h op (op.outcome false rows) := by
  cases op
  case makeDirectory => exact makeDirectory_carries h
  case createFile => exact createFile_carries h
  case delete => exact .inl (delete_carries h)
  case rename => exact .inl (rename_carries h)
  case addBlock => exact addBlock_carries h
  case fileInfo => exact .inl (fileInfo_carries h)
  case listDirectory => exact .inl (listDirectory_carries h)

-- In either mode an operation ends, with a step of the tree.
theorem run_step (config : TransactionConfig) (op : NamespaceOperation) {w : World}
    (hcalm : w.store.Calm) (h : w.store.rows.Arranged) (hspare : w.store.rows.Spare) :
    ∃ result w', (op.execute config).run w = some (result, w') ∧ w'.store.Calm ∧
      ∃ h' : w'.store.rows.Arranged, (w.store.rows.tree h).Step op result (w'.store.rows.tree h') := by
  obtain ⟨w', hrun, hcalm', hrows⟩ := run_eq op config w hcalm h.hierarchy
    (outcome_eq_free h.numbered _)
  refine ⟨_, w', hrun, hcalm', ?_⟩
  rw [hrows]
  exact (outcome_carries h op).resolve_right fun hover => hover.spent hspare

-- On no way through the operations does a counter come to its last value.
def Spares (ops : List (NamespaceOperation × TransactionConfig)) (w : World) : Prop :=
  ∀ done, done <+: ops → ∀ results w', (executeAll done).run w = some (results, w') →
    w'.store.rows.Spare

theorem runs_tree_from {ops : List (NamespaceOperation × TransactionConfig)} {w : World}
    (hcalm : w.store.Calm) (h : w.store.rows.Arranged) (hspares : Spares ops w) :
    ∃ results w', (executeAll ops).run w = some (results, w') ∧ ∃ h' : w'.store.rows.Arranged,
      (w.store.rows.tree h).Runs (ops.map Prod.fst) results (w'.store.rows.tree h') := by
  induction ops generalizing w
  case nil => exact ⟨[], w, rfl, h, .nil _⟩
  case cons op ops ih =>
    obtain ⟨op, config⟩ := op
    have hspare : w.store.rows.Spare := hspares [] List.nil_prefix [] w rfl
    obtain ⟨result, w₁, hrun, hcalm₁, h₁, hstep⟩ := run_step config op hcalm h hspare
    have hspares₁ : Spares ops w₁ := fun done hdone results w' hrest => by
      refine hspares ((op, config) :: done) ((List.prefix_cons_inj _).mpr hdone) (result :: results) w' ?_
      rw [executeAll_cons hrun, hrest]
      rfl
    obtain ⟨results, w', hrest, h', hruns⟩ := ih hcalm₁ h₁ hspares₁
    refine ⟨result :: results, w', ?_, h', .cons hstep hruns⟩
    rw [executeAll_cons hrun, hrest]
    rfl

end Session.NamespaceOperation

theorem Rows.arranged_new : Store.new.rows.Arranged where
  hierarchy := Store.Tidy.new.hierarchy
  numbered := Store.Tidy.new.numbered
  stamp := ⟨1000, rfl⟩
  placed hn := ⟨[], eq_root_of_mem_new hn ▸ Store.Tidy.new.hierarchy.place_nil⟩

theorem Rows.tree_new : Store.new.rows.tree arranged_new = FileTree.new := by
  have hrows := Store.Tidy.new.hierarchy
  refine FileTree.ext (funext fun p => ?_) (funext fun holder => funext fun path => ?_)
  · by_cases hp : p = []
    case pos => simp [hp, tree, FileTree.new, hrows.place_nil]
    case neg =>
      have hnone : Store.new.rows.place p = none := by
        by_contra hsome
        obtain ⟨n, hn⟩ := Option.ne_none_iff_exists'.mp hsome
        have hroot := eq_root_of_mem_new (Rows.mem_of_place hn)
        exact hp (Rows.place_injective hn hrows.place_nil (congrArg Node.id hroot))
      simp [hp, tree, FileTree.new, hnone]
  · have hlease : leaseIn holder Store.new.rows = none := by
      by_contra hsome
      obtain ⟨lease, hlease⟩ := Option.ne_none_iff_exists'.mp hsome
      exact absurd (SortedBy.mem_of_mem_ofList (leaseOf_eq_some_iff.mp hlease).1) (by simp)
    simp [tree, FileTree.new, hlease]

namespace Session.NamespaceOperation

-- From a new store, the operations do to the tree what the file tree says, one after another.
theorem runs_tree {ops : List (NamespaceOperation × TransactionConfig)}
    (hspares : Spares ops { store := .new }) :
    ∃ results w, (executeAll ops).run { store := .new } = some (results, w) ∧
      ∃ h : w.store.rows.Arranged,
        FileTree.new.Runs (ops.map Prod.fst) results (w.store.rows.tree h) := by
  rw [← Rows.tree_new]
  exact runs_tree_from Store.Calm.new Rows.arranged_new hspares

-- Whether no counter of the rows is at its last value, after each of the operations.
def checkSpares (ops : List (NamespaceOperation × TransactionConfig)) : Bool :=
  ops.inits.all fun done => ((executeAll done).run { store := .new }).all fun (_, w) =>
    w.store.rows.toList.all fun
      | .register entry => entry.value.toNat + 1 < UInt64.size
      | _ => true

theorem spares_of_check {ops : List (NamespaceOperation × TransactionConfig)}
    (h : checkSpares ops) : Spares ops { store := .new } := by
  intro done hdone results w hrun register value hvalue
  have hall := List.all_eq_true.mp h done ((List.mem_inits done ops).mpr hdone)
  rw [hrun] at hall
  simpa using List.all_eq_true.mp hall _ (SortedBy.mem_of_find? hvalue)

theorem runs_tree_mixed :
    let ops : List (NamespaceOperation × TransactionConfig) := [(.makeDirectory "/a", {}),
      (.createFile "/a/f" "c", { rowLevelLock := false }), (.rename "/a" "/b", {})]
    Spares ops { store := .new } ∧
      ∃ results w, (executeAll ops).run { store := .new } = some (results, w) ∧
        ∃ h : w.store.rows.Arranged,
          FileTree.new.Runs (ops.map Prod.fst) results (w.store.rows.tree h) := by
  intro ops
  have hspares : Spares ops { store := .new } := spares_of_check (by decide +kernel)
  exact ⟨hspares, runs_tree hspares⟩

end Session.NamespaceOperation

end NamespaceService
