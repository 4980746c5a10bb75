import NamespaceService.Proofs.Namespace.Attempts
import NamespaceService.Proofs.Namespace.Tree

namespace NamespaceService

open NamespaceService.Action Context Timeline

namespace Want

theorem Covers.strong {want : Want} {kind : LockKind} (h : want.Covers kind) (hkind : .read ≤ kind) :
    want.Strong :=
  have ⟨k, hk, hle⟩ := h
  .inr ⟨k, hk, LockKind.le_trans hkind hle⟩

end Want

theorem Position.prefix_dropLast {p q : Position} (h : q <+: p) (hne : q ≠ p) : q <+: p.dropLast := by
  obtain ⟨r, rfl⟩ := h
  have hr : r ≠ [] := by
    rintro rfl
    exact hne (List.append_nil q).symm
  exact ⟨r.dropLast, (List.dropLast_append_of_ne_nil hr).symm⟩

namespace Secured

variable {σ : Timeline} {t u n : Nat} {tx : TxId} {mode : NodeMode} {changes : List Change}
  {parsed : List (String × Position)} {resolved : Resolved} {c : Context} {locked : LockedAt}
  {done : List Position} {path name : String} {names p : Position} {m dir : Node}

theorem mem_done_iff (h : Secured σ t tx mode parsed resolved c u locked done) :
    p ∈ done ↔ ∃ q ∈ parsed.map Prod.snd, p <+: q :=
  h.done_iff.trans Position.mem_closure_iff

theorem below (h : Secured σ t tx mode parsed resolved c u locked done) (hm : locked p = some m)
    (hne : p ≠ []) : ¬m.isRoot := by
  have ⟨finder, hf, old, _, hkey, hsel⟩ := (h.survey.placed hm).place
  obtain ⟨_, _, -, -, -, rfl⟩ := LockedAt.finder?_eq_some hne hf
  obtain ⟨o, rfl, hentry, -⟩ := Finder.selects_nodeNamed hsel
  have hid : o.id = m.id := Key.node.inj hkey
  have := (Rows.isEntryOf_iff.mp hentry).1
  simpa [Node.isRoot, hid] using this

-- A name that was not found in a locked directory is still free.
theorem free (h : Secured σ t tx mode parsed resolved c u locked done)
    (hok : σ.Accepts n c.tx changes) (hu : u ≤ n) (hdone : p ∈ done) (hnone : locked p = none)
    (hdir : locked p.dropLast = some dir) (hd : dir.isDirectory) (hname : p.getLast? = some name)
    (hstrong : (Want.ofPaths mode (parsed.map Prod.snd) p.dropLast).Strong)
    (hall : ∀ q ∈ done, Missed locked q → q = p) :
    (σ.rows n).lookup (.nodeNamed dir.id name) = none := by
  have hfinder : locked.finder? p = some (.nodeNamed dir.id name) := by
    simp [LockedAt.finder?, hname, hdir, hd]
  have hne : p ≠ [] := by
    rintro rfl
    cases hname
  obtain ⟨q, hq, hqp, hmissed⟩ | ⟨τ, _, hτ, hlookup, hparent⟩ :=
    h.survey.missing hdone hnone _ hfinder
  · exact absurd (hall q hq hmissed) hqp
  · obtain ⟨_, hrests⟩ := hparent dir hne hdir
    exact (hrests hstrong).lookup_nodeNamed hok hu (hτ.trans hu) hlookup

-- On a path that is locked down to the end's directory, nothing above the end was missed.
theorem missed_eq_of_prefix (h : Secured σ t tx mode parsed resolved c u locked done)
    (hdir : locked p.dropLast = some dir) {q : Position} (hq : q <+: p) (hmissed : Missed locked q) :
    q = p := by
  by_contra hne
  have ⟨_, hlocked⟩ := h.survey.prefixClosed.of_prefix hdir (Position.prefix_dropLast hq hne)
  cases hlocked.symm.trans hmissed.1

-- So is the end of a path of its own.
theorem free_end (h : Secured σ t tx mode [(path, names)] resolved c u locked done)
    (hok : σ.Accepts n c.tx changes) (hu : u ≤ n) (hnone : locked names = none)
    (hdir : locked names.dropLast = some dir) (hd : dir.isDirectory)
    (hname : names.getLast? = some name) (hstrong : (Want.ofPaths mode [names] names.dropLast).Strong) :
    (σ.rows n).lookup (.nodeNamed dir.id name) = none := by
  have hdone : names ∈ done := h.mem_done_iff.mpr ⟨names, by simp, List.prefix_refl _⟩
  refine h.free hok hu hdone hnone hdir hd hname hstrong fun q hq hmissed => ?_
  have ⟨_, hp, hprefix⟩ := h.mem_done_iff.mp hq
  cases List.mem_singleton.mp hp
  exact h.missed_eq_of_prefix hdir hprefix hmissed

end Secured

namespace Namespace

variable {path name holder : String} {r r' : Resolution} {counter : Option UInt64}

theorem Resolution.directory_eq_ok {dir : Node} (h : r.directory path = .ok dir) :
    r.parent = some dir ∧ dir.isDirectory := by
  rw [directory] at h
  split at h
  case h_1 parent hparent =>
    split at h
    case isTrue hdir =>
      cases h
      exact ⟨hparent, hdir⟩
    case isFalse => cases h
  case h_2 => cases h

theorem leafOf_eq_ok {names : Position} (hnames : Path.components path = .ok names)
    (h : leafOf path = .ok name) : names.getLast? = some name := by
  rw [leafOf, Path.basename?, hnames] at h
  simp only at h
  split at h
  case h_1 heq =>
    cases h
    exact heq
  case h_2 => cases h

theorem successor_eq_ok {register : Register} {next : UInt64}
    (h : successor register counter = .ok next) :
    ∃ value, counter = some value ∧ Counter.next? value = some next := by
  rw [successor.eq_def] at h
  split at h
  case h_1 => cases h
  case h_2 value =>
    split at h
    case h_1 => cases h
    case h_2 next' hnext =>
      cases h
      exact ⟨value, rfl, hnext⟩

theorem bind_eq_ok {α β : Type} {e : Except Stop α} {f : α → Except Stop β} {b : β}
    (h : (e >>= f) = .ok b) : ∃ a, e = .ok a ∧ f a = .ok b := by
  cases e
  case ok a => exact ⟨a, rfl, h⟩
  case error => cases h

theorem makeNode_eq_ok {kind : NodeKind} {more : List Change} {effect : Effect NodeId}
    (h : makeNode path kind r counter more = .ok effect) :
    ∃ dir name value id, r.target = none ∧ r.directory path = .ok dir ∧ leafOf path = .ok name ∧
      counter = some value ∧ Counter.next? value = some id ∧
      effect = ⟨⟨id⟩, [.upsert (.register ⟨.nodeIdCounter, id⟩),
        .upsert (.node ⟨⟨id⟩, dir.id, name, kind, []⟩)] ++ more⟩ := by
  rw [makeNode] at h
  split at h
  case isTrue => cases h
  case isFalse htarget =>
    obtain ⟨dir, hdir, h⟩ := bind_eq_ok h
    obtain ⟨name, hname, h⟩ := bind_eq_ok h
    obtain ⟨id, hid, h⟩ := bind_eq_ok h
    obtain ⟨value, hvalue, hnext⟩ := successor_eq_ok hid
    cases h
    exact ⟨dir, name, value, id, by simpa using htarget, hdir, hname, hvalue, hnext, rfl⟩

theorem Delete.plan_eq_ok {children : NodeId → List Node} {blocks : NodeId → List Block}
    {effect : Effect Bool} (h : plan path r children blocks = .ok effect) :
    r.target = none ∧ effect = ⟨false, []⟩ ∨ ∃ n, r.target = some n ∧ ¬n.isRoot ∧
      (n.isDirectory → children n.id = []) ∧ effect = ⟨true,
        (if n.isDirectory then [] else blocks n.id).map (fun block => .remove (.block block.id)) ++
          [.remove (.node n.id)]⟩ := by
  rw [plan] at h
  split at h
  case h_1 htarget =>
    cases h
    exact .inl ⟨htarget, rfl⟩
  case h_2 n htarget =>
    refine .inr ⟨n, htarget, ?_⟩
    split at h
    case isTrue => cases h
    case isFalse hroot =>
      refine ⟨hroot, ?_⟩
      split at h
      case isTrue hdir =>
        split at h
        case isTrue => cases h
        case isFalse hempty =>
          cases h
          simpa [hdir] using hempty
      case isFalse hdir =>
        cases h
        simp [hdir]

theorem Delete.lockedPlan_eq_ok {children : NodeId → List Node} {blocks : NodeId → List Block}
    {effect : Effect Bool} (h : lockedPlan path r children blocks = .ok effect) :
    plan path r children blocks = .ok effect ∧
      ∀ n, r.target = some n → n.isRoot ∨ n.isDirectory ∨ n.isFile := by
  rw [lockedPlan] at h
  split at h
  case h_1 hnone => exact ⟨h, fun n hn => by cases hnone.symm.trans hn⟩
  case h_2 target htarget =>
    split at h
    case isTrue hkind =>
      refine ⟨h, fun n hn => ?_⟩
      cases htarget.symm.trans hn
      exact hkind
    case isFalse => cases h

theorem AddBlock.plan_eq_ok {lease : Option Lease} {block stamp : Option UInt64}
    {effect : Effect Block} (h : plan path holder r lease block stamp = .ok effect) :
    ∃ file value id old next, r.target = some file ∧ file.isFile ∧ lease.any (·.covers path) ∧
      block = some value ∧ Counter.next? value = some id ∧ stamp = some old ∧
      Counter.next? old = some next ∧ effect = ⟨.fresh ⟨id⟩ file.id next,
        [.upsert (.register ⟨.blockIdCounter, id⟩), .upsert (.register ⟨.generationStamp, next⟩),
          .upsert (.node { file with blocks := file.blocks ++ [⟨id⟩] }),
          .upsert (.block (.fresh ⟨id⟩ file.id next))]⟩ := by
  rw [plan] at h
  split at h
  case h_1 => cases h
  case h_2 file htarget =>
    split at h
    case isTrue => cases h
    case isFalse hfile =>
      split at h
      case isTrue => cases h
      case isFalse hlease =>
        obtain ⟨id, hid, h⟩ := bind_eq_ok h
        obtain ⟨next, hstamp, h⟩ := bind_eq_ok h
        obtain ⟨value, hvalue, hid⟩ := successor_eq_ok hid
        obtain ⟨old, hold, hstamp⟩ := successor_eq_ok hstamp
        cases h
        exact ⟨file, value, id, old, next, htarget, by simpa using hfile, by simpa using hlease,
          hvalue, hid, hold, hstamp, rfl⟩

theorem Rename.plan_eq_ok {source destination : String} {start goal : Position}
    {effect : Effect Unit} (h : plan source destination start goal r r' = .ok effect) :
    effect = ⟨(), []⟩ ∨ ∃ n dir name, start ≠ [] ∧ r.target = some n ∧ r'.target = none ∧
      r'.directory destination = .ok dir ∧ leafOf destination = .ok name ∧
      effect = ⟨(), [.upsert (.node { n with parent := dir.id, name })]⟩ := by
  rw [plan] at h
  split at h
  case isTrue => cases h
  case isFalse hroot =>
    split at h
    case isTrue => cases h
    case isFalse =>
      split at h
      case h_1 => cases h
      case h_2 n htarget =>
        split at h
        case isTrue =>
          cases h
          exact .inl rfl
        case isFalse =>
          split at h
          case isTrue => cases h
          case isFalse hnone =>
            obtain ⟨dir, hdir, h⟩ := bind_eq_ok h
            obtain ⟨name, hname, h⟩ := bind_eq_ok h
            cases h
            exact .inr ⟨n, dir, name, mt .inl hroot, htarget, by simpa using hnone, hdir, hname, rfl⟩

theorem ListDirectory.plan_eq_ok {children : NodeId → List Node} {effect : Effect (List String)}
    (h : plan path r children = .ok effect) : ∃ n, r.target = some n ∧ n.isDirectory ∧
      effect = ⟨sortNames ((children n.id).map Node.name), []⟩ := by
  rw [plan] at h
  split at h
  case h_1 => cases h
  case h_2 n htarget =>
    split at h
    case isTrue => cases h
    case isFalse hdir =>
      cases h
      exact ⟨n, htarget, by simpa using hdir, rfl⟩

theorem valueOf_eq_some {rows : Rows} {register : Register} {value : UInt64}
    (h : valueOf (rows.lookup (.register register)) = some value) :
    rows.counterAt register value := by
  rw [valueOf, Rows.lookup_of_key? rfl] at h
  obtain ⟨entry, hentry, rfl⟩ := Option.map_eq_some_iff.mp h
  obtain ⟨row, hrow, hentry⟩ := Option.bind_eq_some_iff.mp hentry
  have hkey := SortedBy.key_of_find? hrow
  cases row <;> try cases hentry
  cases hkey
  exact hrow

variable {σ : Timeline} {t u n : Nat} {tx : TxId} {changes : List Change} {resolved : Resolved}
  {c : Context} {locked : LockedAt} {done : List Position} {names : Position} {config : TransactionConfig}
  {label : String} {moves : Prop}

theorem along_parent_eq_some {locked : LockedAt} {dir : Node}
    (h : (Resolution.along locked names).parent = some dir) :
    names ≠ [] ∧ locked names.dropLast = some dir := by
  rw [Resolution.along] at h
  split at h
  case isTrue => cases h
  case isFalse hne => exact ⟨hne, h⟩

theorem make_edit {kind : NodeKind} {more : List Change} {counter : Option Row}
    {effect : Effect NodeId} (hnames : Path.components path = .ok names)
    (h : Secured σ t tx .writeOnParent [(path, names)] resolved c u locked done)
    (hcounter : LookedUp σ t u c .write (.register .nodeIdCounter) counter)
    (hok : σ.Accepts n c.tx changes) (hu : u ≤ n) (hkind : kind = .directory ∨ kind = .file)
    (hmore : ∀ change ∈ more, ∃ lease, change = .upsert (.lease lease) ∧ (σ.rows n).Extends lease)
    (hplan : makeNode path kind (.along locked names) (valueOf counter) more = .ok effect) :
    (σ.rows n).Edit moves effect.changes := by
  obtain ⟨dir, name, value, id, htarget, hdir, hname, hvalue, hnext, rfl⟩ := makeNode_eq_ok hplan
  obtain ⟨hparent, hd⟩ := Resolution.directory_eq_ok hdir
  obtain ⟨hne, hlocked⟩ := along_parent_eq_some hparent
  have hstrong : (Want.ofPaths .writeOnParent [names] names.dropLast).Strong :=
    (Want.ofPaths_parent_write (List.mem_singleton.mpr rfl) hne).strong (by decide)
  refine .make (valueOf_eq_some ?_) hnext (h.survey.present hok hu hlocked hstrong) hd ?_ hkind hmore
  · exact lookup_of_lookedUp hcounter rfl (by decide) hok hu ▸ hvalue
  · exact h.free_end hok hu htarget hlocked hd (leafOf_eq_ok hnames hname) hstrong

theorem leaseOf_eq_some_iff {rows : Rows} {lease : Lease} :
    (rows.lookup (.lease holder)).bind Row.lease? = some lease ↔
      .lease lease ∈ rows.toList ∧ lease.holder = holder := by
  rw [Rows.lookup_of_key? rfl]
  constructor
  case mp =>
    intro h
    obtain ⟨row, hrow, hlease⟩ := Option.bind_eq_some_iff.mp h
    have hkey := SortedBy.key_of_find? hrow
    cases row <;> cases hlease
    exact ⟨SortedBy.mem_of_find? hrow, Key.lease.inj hkey⟩
  case mpr =>
    rintro ⟨hlease, rfl⟩
    exact congrArg (·.bind Row.lease?) (SortedBy.find?_of_mem hlease)

theorem leaseOf_holder {rows : Rows} :
    (((rows.lookup (.lease holder)).bind Row.lease?).getD (.new holder)).holder = holder := by
  cases hlease : (rows.lookup (.lease holder)).bind Row.lease?
  case none => rfl
  case some lease => exact (leaseOf_eq_some_iff.mp hlease).2

theorem covers_withPath_iff {lease : Lease} {other : String} :
    (lease.withPath path).covers other ↔ lease.covers other ∨ other = path := by
  have hmem (l : Lease) (q : String) : l.covers q ↔ q ∈ l.paths.toList := by
    simp [Lease.covers, SortedBy.contains]
  rw [hmem, hmem, Lease.withPath, SortedBy.mem_insert_iff]
  by_cases heq : other = path
  case pos => simp [heq]
  case neg => simp [heq, Ne.symm heq]

-- Another path is added to the lease that the holder has.
theorem withPath_extends {rows : Rows} : rows.Extends
    ((((rows.lookup (.lease holder)).bind Row.lease?).getD (.new holder)).withPath path) := by
  intro old hold hholder other hcovers
  have hfound := leaseOf_eq_some_iff.mpr ⟨hold, hholder.trans leaseOf_holder⟩
  rw [hfound]
  exact covers_withPath_iff.mpr (.inl hcovers)

-- No entry has come into a directory that was found empty.
theorem children_empty {m : Node} {found : List Row} {kind : LockKind}
    (hlisted : Listed σ t u c kind (.children m.id) m found) (hempty : c.knownChildren m.id = [])
    (hok : σ.Accepts n c.tx changes) (hu : u ≤ n) :
    (σ.rows n).lookupList (.children m.id) = [] := by
  rw [knownChildren, hlisted.known] at hempty
  refine List.eq_nil_iff_forall_not_mem.mpr fun row hrow => ?_
  have hfound := lookupList_subset hlisted (.inl rfl) hok hu hrow
  obtain ⟨-, hlists⟩ := Rows.mem_lookupList_iff.mp hrow
  cases row
  case node k => exact absurd (List.filterMap_eq_nil_iff.mp hempty _ hfound) (by simp [Row.node?])
  all_goals simp [Finder.lists] at hlists

open UnitOfWork

variable (hlock : config.rowLevelLock)

include hlock

theorem MakeDirectory.edit {a : NodeId}
    (o : Attempted σ config label (requests path) (task path) t) (hresult : o.result = .ok a)
    (hn : o.doneAt ≤ n) (hok : σ.Accepts n o.finish.tx changes) :
    (σ.rows n).Edit moves o.finish.changes := by
  obtain ⟨names, c, locked, done, counter, hnames, hc, h, hcounter, hplanned⟩ := attempted hlock o
  have ⟨effect, hplan, _, hchanges⟩ := hplanned.effect hresult
  have htx : o.finish.tx = c.tx := hplanned.tx_eq hc
  rw [hchanges]
  exact make_edit hnames h.toSecured hcounter (htx ▸ hok) (o.works.le.trans hn) (.inl rfl) (by simp)
    hplan

theorem CreateFile.edit {a : NodeId}
    (o : Attempted σ config label (requests path holder) (task path holder) t)
    (hresult : o.result = .ok a) (hn : o.doneAt ≤ n) (hok : σ.Accepts n o.finish.tx changes) :
    (σ.rows n).Edit moves o.finish.changes := by
  obtain ⟨names, c, locked, done, counter, lease, hnames, hc, h, hcounter, hlease, hplanned⟩ :=
    attempted hlock o
  have ⟨effect, hplan, _, hchanges⟩ := hplanned.effect hresult
  have htx : o.finish.tx = c.tx := hplanned.tx_eq hc
  have hu := o.works.le.trans hn
  rw [hchanges]
  refine make_edit hnames h.toSecured hcounter (htx ▸ hok) hu (.inr rfl) (fun change hchange => ?_)
    hplan
  have hfound := lookup_of_lookedUp hlease rfl (by decide) (htx ▸ hok) hu
  exact ⟨_, List.mem_singleton.mp hchange, hfound ▸ withPath_extends⟩

theorem AddBlock.edit {a : Block}
    (o : Attempted σ config label (requests path holder) (task path holder) t)
    (hresult : o.result = .ok a) (hn : o.doneAt ≤ n) (hok : σ.Accepts n o.finish.tx changes) :
    (σ.rows n).Edit moves o.finish.changes := by
  obtain ⟨names, c, locked, done, lease, block, stamp, hnames, hc, h, -, -, hblock, -, hplanned⟩ :=
    attempted hlock o
  have ⟨effect, hplan, _, hchanges⟩ := hplanned.effect hresult
  have hu := o.works.le.trans hn
  rw [hplanned.tx_eq hc] at hok
  obtain ⟨file, value, id, _, _, htarget, hfile, -, hvalue, hnext, -, -, rfl⟩ := plan_eq_ok hplan
  rw [hchanges]
  refine .append (valueOf_eq_some ?_) hnext ?_ hfile
  · exact lookup_of_lookedUp hblock rfl (by decide) hok hu ▸ hvalue
  · exact h.survey.present hok hu htarget (Want.ofPaths_leaf_strong (by simp) (by decide))

theorem fileInfo_edit {a : Option Node} (o : Attempted σ config label
      (RequestSet.ofRequests [.nodes .read (.paths [path] false)])
      (fun resolved => do return (← resolve resolved path).target) t)
    (hresult : o.result = .ok a) : (σ.rows n).Edit moves o.finish.changes := by
  obtain ⟨names, c, locked, done, -, -, -, hplanned⟩ := fileInfo_attempted hlock o
  have ⟨effect, hplan, _, hchanges⟩ := hplanned.effect hresult
  cases hplan
  exact hchanges ▸ .nothing

theorem ListDirectory.edit {a : List String}
    (o : Attempted σ config label (requests path) (task path) t) (hresult : o.result = .ok a) :
    (σ.rows n).Edit moves o.finish.changes := by
  obtain ⟨names, c, locked, done, -, -, -, -, hplanned⟩ := attempted hlock o
  have ⟨effect, hplan, _, hchanges⟩ := hplanned.effect hresult
  obtain ⟨dir, -, -, rfl⟩ := plan_eq_ok hplan
  exact hchanges ▸ .nothing

theorem Delete.edit {a : Bool} (o : Attempted σ config label (requests path) (task path) t)
    (hresult : o.result = .ok a) (hn : o.doneAt ≤ n) (hok : σ.Accepts n o.finish.tx changes) :
    (σ.rows n).Edit moves o.finish.changes := by
  have hu := o.works.le.trans hn
  obtain ⟨names, c, locked, done, hnames, hc, h, hcontents, hplanned⟩ := attempted hlock o
  have ⟨effect, hplan, _, hchanges⟩ := hplanned.effect hresult
  rw [hplanned.tx_eq hc] at hok
  rw [hchanges]
  obtain ⟨-, rfl⟩ | ⟨m, htarget, hroot, hempty, rfl⟩ := plan_eq_ok (lockedPlan_eq_ok hplan).1
  · exact .nothing
  · refine .drop ?_ hroot fun hdir => ?_
    · exact h.survey.present hok hu htarget (Want.ofPaths_leaf_strong (by simp) (by decide))
    · have ⟨kind, found, hlisted⟩ := (hcontents m htarget).children hdir
      exact children_empty hlisted (hempty hdir) hok hu

theorem Rename.edit {source destination : String} {a : Unit}
    (o : Attempted σ config label (requests source destination) (task source destination) t)
    (hresult : o.result = .ok a) (hn : o.doneAt ≤ n) (hok : σ.Accepts n o.finish.tx changes) :
    (σ.rows n).Edit True o.finish.changes := by
  obtain ⟨start, goal, c, locked, done, hstart, hgoal, hc, h, hplanned⟩ := attempted hlock o
  have ⟨effect, hplan, _, hchanges⟩ := hplanned.effect hresult
  have hu := o.works.le.trans hn
  rw [hplanned.tx_eq hc] at hok
  rw [hchanges]
  obtain rfl | ⟨m, dir, name, hne, htarget, hnone, hdir, hname, rfl⟩ := plan_eq_ok hplan
  · exact .nothing
  obtain ⟨hparent, hd⟩ := Resolution.directory_eq_ok hdir
  obtain ⟨hgne, hlocked⟩ := along_parent_eq_some hparent
  have hstrong : (Want.ofPaths .writeOnParent [start, goal] goal.dropLast).Strong :=
    (Want.ofPaths_parent_write (by simp) hgne).strong (by decide)
  have hdone : goal ∈ done := h.mem_done_iff.mpr ⟨goal, by simp, List.prefix_refl _⟩
  refine .move trivial ?_ (h.below htarget hne) (h.survey.present hok hu hlocked hstrong) hd ?_
  · exact h.survey.present hok hu htarget (Want.ofPaths_leaf_strong (by simp) (by decide))
  · refine h.free hok hu hdone hnone hlocked hd (leafOf_eq_ok hgoal hname) hstrong ?_
    intro q hq hmissed
    obtain ⟨p, hp, hprefix⟩ := h.mem_done_iff.mp hq
    obtain rfl | rfl : p = start ∨ p = goal := by simpa using hp
    · have ⟨_, hq⟩ := h.survey.prefixClosed.of_prefix htarget hprefix
      cases hq.symm.trans hmissed.1
    · exact h.missed_eq_of_prefix hlocked hprefix hmissed

end Namespace

end NamespaceService
