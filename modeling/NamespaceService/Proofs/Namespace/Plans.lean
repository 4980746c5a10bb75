import NamespaceService.Proofs.Namespace.Acquisition
import NamespaceService.Proofs.Transaction.Answers

namespace NamespaceService.Namespace

open NamespaceService.Action Context Stage

-- What a task gives, and what it leaves to be committed.
structure Effect (α : Type) where
  result : α
  changes : List Change

def refuse {α : Type} (error : OperationError) : Except Stop α :=
  .error (.failed (.operation error))

def Resolution.directory (path : String) (r : Resolution) : Except Stop Node :=
  match r.parent with
  | some parent =>
    if parent.isDirectory then .ok parent else refuse (.notADirectory parent.name)
  | none => refuse (.notFound ((Path.dirname? path).getD "/"))

def leafOf (path : String) : Except Stop String :=
  match Path.basename? path with
  | some name => .ok name
  | none => refuse (.invalidArgument s!"{path} has no final component")

def successor (counter : Register) (value : Option UInt64) : Except Stop UInt64 :=
  match value with
  | none => .error (.failed (.store (.invalidRequest s!"variable {counter.text} is not initialised")))
  | some value =>
    match Counter.next? value with
    | none => .error .overflow
    | some next => .ok next

-- A new node under a free name; `more` is written with it.
def makeNode (path : String) (kind : NodeKind) (r : Resolution) (counter : Option UInt64)
    (more : List Change) : Except Stop (Effect NodeId) :=
  if r.target.isSome then refuse (.alreadyExists path)
  else do
    let parent ← r.directory path
    let name ← leafOf path
    let id ← successor .nodeIdCounter counter
    return ⟨⟨id⟩, [.upsert (.register ⟨.nodeIdCounter, id⟩),
      .upsert (.node ⟨⟨id⟩, parent.id, name, kind, []⟩)] ++ more⟩

def MakeDirectory.plan (path : String) (r : Resolution) (counter : Option UInt64) :
    Except Stop (Effect NodeId) :=
  makeNode path .directory r counter []

def CreateFile.plan (path holder : String) (r : Resolution) (counter : Option UInt64)
    (lease : Option Lease) : Except Stop (Effect NodeId) :=
  makeNode path .file r counter [.upsert (.lease ((lease.getD (.new holder)).withPath path))]

def Delete.plan (path : String) (r : Resolution) (children : NodeId → List Node)
    (blocks : NodeId → List Block) : Except Stop (Effect Bool) :=
  match r.target with
  | none => .ok ⟨false, []⟩
  | some target =>
    if target.isRoot then refuse (.invalidArgument "cannot delete the root")
    else if target.isDirectory then
      if !(children target.id).isEmpty then refuse (.directoryNotEmpty path)
      else .ok ⟨true, [.remove (.node target.id)]⟩
    else
      .ok ⟨true, (blocks target.id).map (fun block => .remove (.block block.id)) ++
        [.remove (.node target.id)]⟩

-- Under row locks, the blocks of what is neither a directory nor a file have not been listed.
def Delete.lockedPlan (path : String) (r : Resolution) (children : NodeId → List Node)
    (blocks : NodeId → List Block) : Except Stop (Effect Bool) :=
  match r.target with
  | none => plan path r children blocks
  | some target =>
    if target.isRoot ∨ target.isDirectory ∨ target.isFile then plan path r children blocks
    else .error (.failed (.store (.storagePrevented (Finder.blocksOf target.id).text)))

def Rename.plan (source destination : String) (start goal : Position) (r r' : Resolution) :
    Except Stop (Effect Unit) :=
  if start = [] ∨ goal = [] then refuse (.invalidArgument "cannot rename the root")
  else if start.length < goal.length ∧ start.isPrefixOf goal then
    refuse (.invalidArgument s!"{destination} is inside {source}")
  else match r.target with
    | none => refuse (.notFound source)
    | some node =>
      if start = goal then .ok ⟨(), []⟩
      else if r'.target.isSome then refuse (.alreadyExists destination)
      else do
        let parent ← r'.directory destination
        let name ← leafOf destination
        return ⟨(), [.upsert (.node { node with parent := parent.id, name })]⟩

def AddBlock.plan (path holder : String) (r : Resolution) (lease : Option Lease)
    (block stamp : Option UInt64) : Except Stop (Effect Block) :=
  match r.target with
  | none => refuse (.notFound path)
  | some file =>
    if !file.isFile then refuse (.notAFile path)
    else if !(lease.any (·.covers path)) then
      refuse (.invalidArgument s!"{holder} holds no lease on {path}")
    else do
      let id ← successor .blockIdCounter block
      let stamp ← successor .generationStamp stamp
      let block := Block.fresh ⟨id⟩ file.id stamp
      return ⟨block, [.upsert (.register ⟨.blockIdCounter, id⟩),
        .upsert (.register ⟨.generationStamp, stamp⟩),
        .upsert (.node { file with blocks := file.blocks ++ [⟨id⟩] }), .upsert (.block block)]⟩

def ListDirectory.plan (path : String) (r : Resolution) (children : NodeId → List Node) :
    Except Stop (Effect (List String)) :=
  match r.target with
  | none => refuse (.notFound path)
  | some dir =>
    if !dir.isDirectory then refuse (.notADirectory path)
    else .ok ⟨sortNames ((children dir.id).map Node.name), []⟩

-- The task ends as planned, and has buffered the planned changes.
def Follows {α : Type} (supply : Option Rows) (m : Task α) (c : Context)
    (plan : Except Stop (Effect α)) : Prop :=
  ∃ c', YieldsTo supply m c (plan.map Effect.result) c' ∧ c.Edits c' ∧
    ∀ effect, plan = .ok effect → c'.changes = effect.changes

variable {supply : Option Rows}

namespace Follows

variable {α β : Type} {m : Task α} {f : α → Task β} {c c' : Context} {g : α → Except Stop (Effect β)}
  {e : Except Stop α} {a : α}

theorem last {changes : List Change} (hm : YieldsTo supply m c (.ok a) c') (hc : c.Edits c')
    (h : c'.changes = changes) : Follows supply m c (.ok ⟨a, changes⟩) :=
  ⟨c', hm, hc, fun _ heq => by cases heq; exact h⟩

theorem pure {changes : List Change} (h : c.changes = changes) :
    Follows supply (pure a) c (.ok ⟨a, changes⟩) :=
  last .pure (.refl c) h

theorem refused {error : OperationError} :
    Follows supply (Task.fail error : Task α) c (refuse error) :=
  ⟨c, .throw, .refl c, fun _ heq => by cases heq⟩

theorem after (hm : YieldsTo supply m c (.ok a) c') (hc : c.Edits c')
    {plan : Except Stop (Effect β)} (hf : Follows supply (f a) c' plan) :
    Follows supply (m >>= f) c plan :=
  have ⟨c'', hy, hc', hchanges⟩ := hf
  ⟨c'', hm.bind hy, hc.trans hc', hchanges⟩

-- A step that decides without a change.
theorem decide (hm : YieldsTo supply m c e c')
    (hc : c.Edits c') (hf : ∀ a, e = .ok a → Follows supply (f a) c' (g a)) :
    Follows supply (m >>= f) c (e >>= g) := by
  cases e
  case ok a => exact after hm hc (hf a rfl)
  case error stop => exact ⟨c', hm.bind_error, hc, fun _ heq => by cases heq⟩

theorem check {p : Prop} [Decidable p] {error : OperationError} {rest : Unit → Task α}
    {plan : Except Stop (Effect α)}
    (h : ¬p → Follows supply (rest ()) c plan) :
    Follows supply (if p then Task.fail error >>= rest else rest ()) c
      (if p then refuse error else plan) := by
  split
  case isTrue => exact ⟨c, YieldsTo.throw.bind_error, .refl c, fun _ heq => by cases heq⟩
  case isFalse hp => exact h hp

end Follows

variable {path holder : String} {resolved : Resolved} {c : Context} {r : Resolution}
  {found : Option Row}

theorem parentDirectory_yields :
    YieldsTo supply (parentDirectory path r) c (r.directory path) c := by
  obtain ⟨target, _ | parent⟩ := r
  · exact .throw
  · simp only [parentDirectory, Resolution.directory]
    split
    case isTrue => exact .pure
    case isFalse => exact .throw

theorem leafName_yields : YieldsTo supply (leafName path) c (leafOf path) c := by
  rw [leafName, leafOf]
  cases Path.basename? path
  case none => exact .throw
  case some => exact .pure

-- What a register's row says.
def valueOf (found : Option Row) : Option UInt64 :=
  (found.bind Row.register?).map RegisterValue.value

theorem nextValue_follows {α : Type} {counter : Register} {f : UInt64 → Task α}
    {g : UInt64 → Except Stop (Effect α)} (hc : c.Keyed)
    (h : c.Offers supply (.register counter) found) (hfound : Fitting (.register counter) found)
    (hf : ∀ value c', c.Within (.register counter) c' →
      c'.changes = c.changes ++ [.upsert (.register ⟨counter, value⟩)] →
      Follows supply (f value) c' (g value)) :
    Follows supply (nextValue counter >>= f) c (successor counter (valueOf found) >>= g) := by
  obtain ⟨c₁, hy, hw, hchanges⟩ := Action.find_within h rfl hfound
  have hfind : YieldsTo supply (liftM (Action.find (.register counter)) : Task _) c (.ok found) c₁ :=
    .lift hy
  have hstop {stop : Stop} (hy : YieldsTo supply (nextValue counter) c (.error stop) c₁) :
      Follows supply (nextValue counter >>= f) c (.error stop) :=
    ⟨c₁, hy.bind_error, hw.toEdits, fun _ heq => by cases heq⟩
  rw [successor.eq_def, valueOf]
  cases hentry : found.bind Row.register?
  case none =>
    refine hstop (hfind.bind ?_)
    simp only [hentry]
    exact .throw
  case some entry =>
    cases hnext : Counter.next? entry.value
    case none =>
      simp only [Option.map_some, hnext]
      refine hstop (hfind.bind ?_)
      simp only [hentry, hnext]
      exact .throw
    case some next =>
      simp only [Option.map_some, hnext]
      have hupsert := Within.upsert (hw.keyed hc) (.register ⟨counter, next⟩)
      have hnew : YieldsTo supply (nextValue counter) c (.ok next)
          (c₁.upsert (.register ⟨counter, next⟩)) := by
        refine hfind.bind ?_
        simp only [hentry, hnext]
        exact (YieldsTo.lift Action.upsert_yields).bind .pure
      exact .after hnew (hw.trans hupsert).toEdits
        (hf next _ (hw.trans hupsert) (by rw [upsert_changes, hchanges]))

theorem lease?_yields (h : c.Offers supply (.lease holder) found)
    (hfound : Fitting (.lease holder) found) : ∃ c',
    YieldsTo supply (lease? holder) c (.ok (found.bind Row.lease?)) c' ∧
      c.Within (.lease holder) c' ∧ c'.changes = c.changes :=
  have ⟨c', hy, hw⟩ := Action.find_within h rfl hfound
  ⟨c', (YieldsTo.lift hy).bind .pure, hw⟩

theorem children_yields {dir : NodeId} {rows : List Row}
    (h : c.OffersList supply (.children dir) rows) : ∃ c',
    YieldsTo supply (children dir) c (.ok (rows.filterMap Row.node?)) c' ∧ c.Edits c' ∧
      c'.changes = c.changes :=
  have ⟨c', hy, hc⟩ := Action.findList_yields h
  ⟨c', (YieldsTo.lift hy).bind .pure, hc⟩

theorem checkLease_yields (path : String) (h : c.Offers supply (.lease holder) found)
    (hfound : Fitting (.lease holder) found) : ∃ c',
    YieldsTo supply (AddBlock.checkLease path holder) c
      (if !((found.bind Row.lease?).any (·.covers path)) then
        refuse (.invalidArgument s!"{holder} holds no lease on {path}") else .ok ()) c' ∧
      c.Within (.lease holder) c' ∧ c'.changes = c.changes := by
  obtain ⟨c', hy, hw⟩ := lease?_yields h hfound
  refine ⟨c', hy.bind ?_, hw⟩
  cases found.bind Row.lease?
  case none => exact .throw
  case some lease =>
    simp only [Option.any_some]
    split
    case isTrue => exact .throw
    case isFalse => exact .pure

theorem removeAll_yields (blocks : List Block) :
    ∃ c', YieldsTo supply
        (blocks.forM fun block => (liftM (Action.remove (.block block.id)) : Task Unit)) c (.ok ()) c' ∧
      c.Edits c' ∧ c'.changes = c.changes ++ blocks.map fun block => .remove (.block block.id) := by
  induction blocks generalizing c
  case nil => exact ⟨c, .pure, .refl c, by simp⟩
  case cons block blocks ih =>
    have ⟨c', hy, hc, hchanges⟩ := ih (c := c.remove (.block block.id))
    refine ⟨c', (YieldsTo.lift Action.remove_yields).bind hy, (Edits.remove _).trans hc, ?_⟩
    simp [hchanges, remove_changes]

theorem removeBlocks_yields {file : NodeId} {rows : List Row}
    (h : c.OffersList supply (.blocksOf file) rows) :
    ∃ c', YieldsTo supply (Delete.removeBlocks file) c (.ok ()) c' ∧ c.Edits c' ∧
      c'.changes = c.changes ++
        (rows.filterMap Row.block?).map fun block => .remove (.block block.id) :=
  have ⟨_, hy, hc, hchanges⟩ := Action.findList_yields h
  have ⟨c', hy', hc', hchanges'⟩ := removeAll_yields (rows.filterMap Row.block?)
  ⟨c', (YieldsTo.lift hy).bind hy', hc.trans hc', hchanges ▸ hchanges'⟩

theorem Delete.lockedPlan_eq {children : NodeId → List Node} {blocks : NodeId → List Block}
    (h : ∀ n, r.target = some n → n.isRoot ∨ n.isDirectory ∨ n.isFile) :
    lockedPlan path r children blocks = plan path r children blocks := by
  rw [lockedPlan]
  split
  case h_1 => rfl
  case h_2 n hn => exact if_pos (h n hn)

section

variable {names : Position} {counter lease block stamp : Option Row} {n : Node} {c₁ : Context}
  (hresolve : YieldsTo supply (resolve resolved path) c (.ok r) c₁) (hc : c.Edits c₁)
  (hchanges : c₁.changes = [])

include hresolve hc hchanges

theorem fileInfo_follows :
    Follows supply (do return (← resolve resolved path).target) c (.ok ⟨r.target, []⟩) :=
  .after hresolve hc (.pure hchanges)

theorem MakeDirectory.follows (hkeyed : c₁.Keyed)
    (hcounter : c₁.Offers supply (.register .nodeIdCounter) counter)
    (hcounter' : Fitting (.register .nodeIdCounter) counter) :
    Follows supply (task path resolved) c (plan path r (valueOf counter)) := by
  refine .after hresolve hc (.check fun _ => ?_)
  refine .decide parentDirectory_yields (.refl c₁) fun parent _ => ?_
  refine .decide leafName_yields (.refl c₁) fun name _ => ?_
  refine nextValue_follows hkeyed hcounter hcounter' fun id c₂ _ hc₂ => ?_
  refine .after (.lift Action.upsert_yields) (.upsert _) (.after (.lift .log) (.refl _) ?_)
  exact .pure (by simp [upsert_changes, hc₂, hchanges])

theorem CreateFile.follows (hkeyed : c₁.Keyed)
    (hcounter : c₁.Offers supply (.register .nodeIdCounter) counter)
    (hcounter' : Fitting (.register .nodeIdCounter) counter)
    (hlease : c₁.Offers supply (.lease holder) lease) (hlease' : Fitting (.lease holder) lease) :
    Follows supply (task path holder resolved) c
      (plan path holder r (valueOf counter) (lease.bind Row.lease?)) := by
  refine .after hresolve hc (.check fun _ => ?_)
  refine .decide parentDirectory_yields (.refl c₁) fun parent _ => ?_
  refine .decide leafName_yields (.refl c₁) fun name _ => ?_
  refine nextValue_follows hkeyed hcounter hcounter' fun id c₂ hw hc₂ => ?_
  have hnode := Within.upsert (hw.keyed hkeyed) (.node ⟨⟨id⟩, parent.id, name, .file, []⟩)
  have hlease := (hlease.within hlease' rfl hw (by simp)).within hlease' rfl hnode (by simp [Row.key])
  obtain ⟨c₃, hy, hw₃, hc₃⟩ := lease?_yields hlease hlease'
  refine .after (.lift Action.upsert_yields) (.upsert _) (.after hy hw₃.toEdits ?_)
  refine .after (.lift Action.upsert_yields) (.upsert _) (.after (.lift .log) (.refl _) (.pure ?_))
  simp [upsert_changes, hc₃, hc₂, hchanges]

theorem AddBlock.follows (hkeyed : c₁.Keyed)
    (hlease : c₁.Offers supply (.lease holder) lease) (hlease' : Fitting (.lease holder) lease)
    (hblock : c₁.Offers supply (.register .blockIdCounter) block)
    (hblock' : Fitting (.register .blockIdCounter) block)
    (hstamp : c₁.Offers supply (.register .generationStamp) stamp)
    (hstamp' : Fitting (.register .generationStamp) stamp) :
    Follows supply (task path holder resolved) c
      (plan path holder r (lease.bind Row.lease?) (valueOf block) (valueOf stamp)) := by
  refine .after hresolve hc ?_
  rw [plan]
  cases htarget : r.target
  case none => exact .refused
  case some file =>
    refine .check fun _ => ?_
    have ⟨c₂, hcheck, hw, hc₂⟩ := checkLease_yields path hlease hlease'
    split
    case isTrue hcovers =>
      rw [if_pos hcovers] at hcheck
      exact ⟨c₂, hcheck.bind_error, hw.toEdits, fun _ heq => by cases heq⟩
    case isFalse hcovers =>
      rw [if_neg hcovers] at hcheck
      refine .after hcheck hw.toEdits ?_
      have hblock := hblock.within hblock' rfl hw (by simp)
      have hstamp := hstamp.within hstamp' rfl hw (by simp)
      refine nextValue_follows (hw.keyed hkeyed) hblock hblock' fun id c₃ hw₃ hc₃ => ?_
      have hstamp := hstamp.within hstamp' rfl hw₃ (by simp)
      refine nextValue_follows (hw₃.keyed (hw.keyed hkeyed)) hstamp hstamp' fun stamp c₄ _ hc₄ => ?_
      refine .after (.lift Action.upsert_yields) (.upsert _) ?_
      refine .after (.lift Action.upsert_yields) (.upsert _) ?_
      refine .after (.lift .log) (.refl _) (.pure ?_)
      simp [upsert_changes, hc₄, hc₃, hc₂, hchanges]

theorem Delete.follows {children : NodeId → List Node} {blocks : NodeId → List Block}
    (hchildren : ∀ n, r.target = some n → n.isDirectory → ∃ rows,
      c₁.OffersList supply (.children n.id) rows ∧ children n.id = rows.filterMap Row.node?)
    (hblocks : ∀ n, r.target = some n → ¬n.isRoot → ¬n.isDirectory → ∃ rows,
      c₁.OffersList supply (.blocksOf n.id) rows ∧ blocks n.id = rows.filterMap Row.block?) :
    Follows supply (task path resolved) c (plan path r children blocks) := by
  refine .after hresolve hc ?_
  rw [plan]
  cases htarget : r.target
  case none => exact .pure hchanges
  case some n =>
    refine .check fun hbelow => ?_
    by_cases hdir : n.isDirectory
    case pos =>
      have ⟨rows, hrows, heq⟩ := hchildren n htarget hdir
      have ⟨c₂, hy, hc₂, hsame⟩ := children_yields hrows
      simp only [hdir, if_true, heq]
      refine .after hy hc₂ (.check fun _ => ?_)
      refine .after (.lift Action.remove_yields) (.remove _) (.after (.lift .log) (.refl _) ?_)
      exact .pure (by simp [remove_changes, hsame, hchanges])
    case neg =>
      have ⟨rows, hrows, heq⟩ := hblocks n htarget hbelow hdir
      have ⟨c₂, hy, hc₂, hremoved⟩ := removeBlocks_yields hrows
      simp only [hdir, heq]
      refine .after hy hc₂ ?_
      refine .after (.lift Action.remove_yields) (.remove _) (.after (.lift .log) (.refl _) ?_)
      exact .pure (by simp [remove_changes, hremoved, hchanges])

-- A list that a sealed context does not have cannot be read.
theorem Delete.follows_locked {children : NodeId → List Node} {blocks : NodeId → List Block}
    (hsealed : c₁.sealed)
    (hchildren : ∀ n, r.target = some n → n.isDirectory → ∃ rows,
      c₁.OffersList supply (.children n.id) rows ∧ children n.id = rows.filterMap Row.node?)
    (hblocks : ∀ n, r.target = some n → n.isFile → ∃ rows,
      c₁.OffersList supply (.blocksOf n.id) rows ∧ blocks n.id = rows.filterMap Row.block?)
    (hunlisted : ∀ n, r.target = some n → ¬n.isDirectory → ¬n.isFile →
      c₁.lists (.blocksOf n.id) = none) :
    Follows supply (task path resolved) c (lockedPlan path r children blocks) := by
  by_cases hkind : ∀ n, r.target = some n → n.isRoot ∨ n.isDirectory ∨ n.isFile
  case pos =>
    rw [lockedPlan_eq hkind]
    refine follows hresolve hc hchanges hchildren fun n hn hbelow hdir => hblocks n hn ?_
    exact ((hkind n hn).resolve_left hbelow).resolve_left hdir
  case neg =>
    push Not at hkind
    obtain ⟨n, hn, hbelow, hdir, hfile⟩ := hkind
    have hblocked : YieldsTo supply (removeBlocks n.id) c₁
        (.error (.failed (.store (.storagePrevented (Finder.blocksOf n.id).text)))) c₁ :=
      (YieldsTo.lift_error (findList_prevented hsealed (hunlisted n hn hdir hfile))).bind_error
    have htask : lockedPlan path r children blocks =
        .error (.failed (.store (.storagePrevented (Finder.blocksOf n.id).text))) := by
      simp [lockedPlan, hn, hbelow, hdir, hfile]
    rw [htask]
    refine .after hresolve hc ?_
    simp only [hn, hbelow, hdir]
    exact ⟨c₁, hblocked.bind_error, .refl c₁, fun _ heq => by cases heq⟩

theorem ListDirectory.follows {children : NodeId → List Node}
    (hchildren : ∀ n, r.target = some n → n.isDirectory → ∃ rows,
      c₁.OffersList supply (.children n.id) rows ∧ children n.id = rows.filterMap Row.node?) :
    Follows supply (task path resolved) c (plan path r children) := by
  refine .after hresolve hc ?_
  rw [plan]
  cases htarget : r.target
  case none => exact .refused
  case some n =>
    refine .check fun hdir => ?_
    have ⟨rows, hrows, heq⟩ := hchildren n htarget (by simpa using hdir)
    have ⟨c₂, hy, hc₂, hsame⟩ := children_yields hrows
    rw [heq]
    exact .after hy hc₂ (.pure (hsame.trans hchanges))

end

theorem Rename.follows {source destination : String} {start goal : Position} {r' : Resolution}
    {c₁ c₂ : Context} (hstart : Path.components source = .ok start)
    (hgoal : Path.components destination = .ok goal)
    (hresolve : YieldsTo supply (resolve resolved source) c (.ok r) c₁) (hc : c.Edits c₁)
    (hchanges : c₁.changes = [])
    (hresolve' : YieldsTo supply (resolve resolved destination) c₁ (.ok r') c₂)
    (hc' : c₁.Edits c₂) (hchanges' : c₂.changes = []) :
    Follows supply (task source destination resolved) c
      (plan source destination start goal r r') := by
  rw [task, hstart, hgoal]
  refine .after .pure (.refl c) (.after .pure (.refl c) ?_)
  by_cases hroot : start = [] ∨ goal = []
  case pos =>
    have hcheck : YieldsTo supply (checkArguments source destination start goal) c
        (refuse (.invalidArgument "cannot rename the root")) c := by
      rw [checkArguments, if_pos hroot]
      exact YieldsTo.throw.bind_error
    rw [plan, if_pos hroot]
    exact ⟨c, hcheck.bind_error, .refl c, fun _ heq => by cases heq⟩
  case neg =>
    by_cases hinside : start.length < goal.length ∧ start.isPrefixOf goal
    case pos =>
      have hcheck : YieldsTo supply (checkArguments source destination start goal) c
          (refuse (.invalidArgument s!"{destination} is inside {source}")) c := by
        rw [checkArguments, if_neg hroot, if_pos hinside]
        exact .throw
      rw [plan, if_neg hroot, if_pos hinside]
      exact ⟨c, hcheck.bind_error, .refl c, fun _ heq => by cases heq⟩
    case neg =>
      have hcheck : YieldsTo supply (checkArguments source destination start goal) c (.ok ()) c := by
        rw [checkArguments, if_neg hroot, if_neg hinside]
        exact .pure
      rw [plan, if_neg hroot, if_neg hinside]
      refine .after hcheck (.refl c) (.after hresolve hc ?_)
      cases htarget : r.target
      case none => exact .refused
      case some n =>
        simp only
        split
        case isTrue => exact .pure hchanges
        case isFalse =>
          refine .after hresolve' hc' (.check fun _ => ?_)
          refine .decide parentDirectory_yields (.refl c₂) fun parent _ => ?_
          refine .decide leafName_yields (.refl c₂) fun name _ => ?_
          refine .after (.lift Action.upsert_yields) (.upsert _) ?_
          exact .last (.lift .log) (.refl _) (by simp [upsert_changes, hchanges'])

-- A failure that no further attempt follows.
def Final {α : Type} (e : Except Stop α) : Prop :=
  ∀ failure, e = .error (.failed failure) → failure.transient? = none

namespace Final

variable {α β : Type} {e : Except Stop α} {f : α → Except Stop β} {a : α} {b : UInt64}
  {kind : NodeKind} {counter : Option UInt64} {more : List Change} {r' : Resolution}
  {children : NodeId → List Node} {blocks : NodeId → List Block} {lease : Option Lease}
  {block stamp : Option UInt64} {source destination : String} {start goal : Position}

theorem ok : Final (.ok a : Except Stop α) :=
  fun _ h => by cases h

theorem refuse {error : OperationError} : Final (Namespace.refuse error : Except Stop α) := by
  intro failure h
  cases h
  rfl

theorem error {fault : Fault} (h : fault.isTransient = false) :
    Final (.error (.failed (.store fault)) : Except Stop α) := by
  intro failure heq
  cases heq
  simp [Failure.transient?, h]

theorem bind (he : Final e) (hf : ∀ a, Final (f a)) : Final (e >>= f) := by
  cases e
  case ok a => exact hf a
  case error stop =>
    intro failure h
    cases h
    exact he failure rfl

theorem directory : Final (r.directory path) := by
  rw [Resolution.directory]
  split
  case h_1 => split <;> first | exact .ok | exact .refuse
  case h_2 => exact .refuse

theorem leafOf : Final (leafOf path) := by
  rw [Namespace.leafOf]
  split <;> first | exact .ok | exact .refuse

theorem successor {register : Register} : Final (successor register counter) := by
  rw [successor.eq_def]
  split
  case h_1 => exact .error rfl
  case h_2 =>
    split
    case h_1 => exact fun _ h => by cases h
    case h_2 => exact .ok

theorem makeNode : Final (makeNode path kind r counter more) := by
  rw [Namespace.makeNode]
  split
  case isTrue => exact .refuse
  case isFalse => exact directory.bind fun _ => leafOf.bind fun _ => successor.bind fun _ => .ok

theorem delete : Final (Delete.plan path r children blocks) := by
  rw [Delete.plan]
  repeat' split
  all_goals first | exact .ok | exact .refuse

theorem lockedDelete : Final (Delete.lockedPlan path r children blocks) := by
  rw [Delete.lockedPlan]
  repeat' split
  all_goals first | exact .delete | exact .error rfl

theorem rename : Final (Rename.plan source destination start goal r r') := by
  rw [Rename.plan]
  repeat' split
  all_goals first | exact .ok | exact .refuse | exact directory.bind fun _ => leafOf.bind fun _ => .ok

theorem addBlock : Final (AddBlock.plan path holder r lease block stamp) := by
  rw [AddBlock.plan]
  repeat' split
  all_goals first | exact .refuse | exact successor.bind fun _ => successor.bind fun _ => .ok

theorem listDirectory : Final (ListDirectory.plan path r children) := by
  rw [ListDirectory.plan]
  repeat' split
  all_goals first | exact .ok | exact .refuse

end Final

end NamespaceService.Namespace
