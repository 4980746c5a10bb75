import NamespaceService.Proofs.Namespace.Places

namespace NamespaceService

-- On the way to the directory that the position is in, below the root, the id is taken.
def Rows.crosses (rows : Rows) (p : Position) (id : NodeId) : Bool :=
  (Position.fromRoot p.dropLast).any fun q =>
    q ≠ [] && q ≠ p.dropLast && (rows.place q).any (·.id = id)

theorem Rows.crosses_iff {rows : Rows} {p : Position} {id : NodeId} : rows.crosses p id ↔
    ∃ q n, q ≠ [] ∧ q <+: p.dropLast ∧ q ≠ p.dropLast ∧ rows.place q = some n ∧ n.id = id := by
  simp only [crosses, List.any_eq_true, Position.mem_fromRoot_iff, Bool.and_eq_true,
    decide_eq_true_eq, Option.any_eq_true]
  grind

namespace Namespace

def namesOf (path : String) : Except Stop Position :=
  match Path.components path with
  | .ok names => .ok names
  | .error e => .error (.failed (.store (.invalidRequest e.message)))

variable {rows : Rows} {path holder source destination : String} {names start goal p : Position}
  {r : Resolution}

theorem namesOf_eq (h : Path.components path = .ok names) : namesOf path = .ok names := by
  rw [namesOf, h]

theorem namesOf_malformed {e : Path.PathError} (h : Path.components path = .error e) :
    namesOf path = .error (.failed (.store (.invalidRequest e.message))) := by
  rw [namesOf, h]

def resolveIn (path : String) (rows : Rows) : Except Stop Resolution :=
  (namesOf path).map (.along rows.place)

theorem resolveIn_eq (h : Path.components path = .ok names) :
    resolveIn path rows = .ok (.along rows.place names) := by
  rw [resolveIn, namesOf_eq h]
  rfl

theorem resolveIn_malformed {e : Path.PathError} (h : Path.components path = .error e) :
    resolveIn path rows = .error (.failed (.store (.invalidRequest e.message))) := by
  rw [resolveIn, namesOf_malformed h]
  rfl

def counterIn (counter : Register) (rows : Rows) : Option UInt64 :=
  valueOf (rows.lookup (.register counter))

def leaseIn (holder : String) (rows : Rows) : Option Lease :=
  (rows.lookup (.lease holder)).bind Row.lease?

def childrenIn (rows : Rows) (dir : NodeId) : List Node :=
  (rows.lookupList (.children dir)).filterMap Row.node?

def blocksIn (rows : Rows) (file : NodeId) : List Block :=
  (rows.lookupList (.blocksOf file)).filterMap Row.block?

theorem mem_childrenIn_iff {dir : NodeId} {n : Node} : n ∈ childrenIn rows dir ↔
    .node n ∈ rows.toList ∧ ¬n.isRoot ∧ n.parent = dir := by
  rw [← Rows.mem_children_iff, childrenIn, List.mem_filterMap]
  constructor
  case mp =>
    rintro ⟨row, hrow, heq⟩
    cases row <;> cases heq
    exact hrow
  case mpr => exact fun h => ⟨.node n, h, rfl⟩

def MakeDirectory.outcome (path : String) (rows : Rows) : Except Stop (Effect NodeId) := do
  plan path (← resolveIn path rows) (counterIn .nodeIdCounter rows)

def CreateFile.outcome (path holder : String) (rows : Rows) : Except Stop (Effect NodeId) := do
  plan path holder (← resolveIn path rows) (counterIn .nodeIdCounter rows) (leaseIn holder rows)

def Delete.outcome (path : String) (rows : Rows) : Except Stop (Effect Bool) := do
  plan path (← resolveIn path rows) (childrenIn rows) (blocksIn rows)

def Rename.outcome (source destination : String) (rows : Rows) : Except Stop (Effect Unit) := do
  let start ← namesOf source
  let goal ← namesOf destination
  plan source destination start goal (.along rows.place start) (.along rows.place goal)

def AddBlock.outcome (path holder : String) (rows : Rows) : Except Stop (Effect Block) := do
  plan path holder (← resolveIn path rows) (leaseIn holder rows) (counterIn .blockIdCounter rows)
    (counterIn .generationStamp rows)

def fileInfoOutcome (path : String) (rows : Rows) : Except Stop (Effect (Option Node)) := do
  return ⟨(← resolveIn path rows).target, []⟩

def ListDirectory.outcome (path : String) (rows : Rows) : Except Stop (Effect (List String)) := do
  plan path (← resolveIn path rows) (childrenIn rows)

-- Under row locks, three operations differ.
def guardId (rows : Rows) (names : Position) (made : Except Stop (Effect NodeId)) :
    Except Stop (Effect NodeId) := do
  let effect ← made
  if rows.crosses names effect.result then
    .error (.failed (.store (.lockUpgrade (.node effect.result) LockKind.readCommitted.text)))
  else return effect

def MakeDirectory.lockedOutcome (path : String) (rows : Rows) : Except Stop (Effect NodeId) := do
  guardId rows (← namesOf path) (outcome path rows)

def CreateFile.lockedOutcome (path holder : String) (rows : Rows) :
    Except Stop (Effect NodeId) := do
  guardId rows (← namesOf path) (outcome path holder rows)

def Delete.lockedOutcome (path : String) (rows : Rows) : Except Stop (Effect Bool) := do
  lockedPlan path (← resolveIn path rows) (childrenIn rows) (blocksIn rows)

section

variable (h : Path.components path = .ok names)

include h

theorem MakeDirectory.outcome_eq : outcome path rows =
    plan path (.along rows.place names) (counterIn .nodeIdCounter rows) := by
  rw [outcome, resolveIn_eq h]
  rfl

theorem CreateFile.outcome_eq : outcome path holder rows =
    plan path holder (.along rows.place names) (counterIn .nodeIdCounter rows)
      (leaseIn holder rows) := by
  rw [outcome, resolveIn_eq h]
  rfl

theorem Delete.outcome_eq : outcome path rows =
    plan path (.along rows.place names) (childrenIn rows) (blocksIn rows) := by
  rw [outcome, resolveIn_eq h]
  rfl

theorem Delete.lockedOutcome_eq : lockedOutcome path rows =
    lockedPlan path (.along rows.place names) (childrenIn rows) (blocksIn rows) := by
  rw [lockedOutcome, resolveIn_eq h]
  rfl

theorem AddBlock.outcome_eq : outcome path holder rows =
    plan path holder (.along rows.place names) (leaseIn holder rows)
      (counterIn .blockIdCounter rows) (counterIn .generationStamp rows) := by
  rw [outcome, resolveIn_eq h]
  rfl

theorem fileInfoOutcome_eq : fileInfoOutcome path rows = .ok ⟨rows.place names, []⟩ := by
  rw [fileInfoOutcome, resolveIn_eq h]
  rfl

theorem ListDirectory.outcome_eq :
    outcome path rows = plan path (.along rows.place names) (childrenIn rows) := by
  rw [outcome, resolveIn_eq h]
  rfl

end

theorem Rename.outcome_eq (hstart : Path.components source = .ok start)
    (hgoal : Path.components destination = .ok goal) :
    outcome source destination rows =
      plan source destination start goal (.along rows.place start) (.along rows.place goal) := by
  rw [outcome, namesOf_eq hstart, namesOf_eq hgoal]
  rfl

theorem Final.resolveIn : Final (resolveIn path rows) := by
  rw [Namespace.resolveIn, namesOf]
  split
  case h_1 => exact .ok
  case h_2 => exact .error rfl

theorem Final.namesOf : Final (namesOf path) := by
  rw [Namespace.namesOf]
  split
  case h_1 => exact .ok
  case h_2 => exact .error rfl

section

variable {kind : NodeKind} {counter : Option UInt64} {more : List Change} {error : OperationError}
  {place : Position → Option Node}

theorem along_parent (hne : names ≠ []) :
    (Resolution.along place names).parent = place names.dropLast :=
  if_neg hne

theorem makeNode_taken (h : r.target.isSome) :
    makeNode path kind r counter more = refuse (.alreadyExists path) :=
  if_pos h

theorem makeNode_misplaced (h : r.target = none) (hdir : r.directory path = refuse error) :
    makeNode path kind r counter more = refuse error := by
  rw [makeNode, hdir, h]
  rfl

theorem bind_eq_error {α β : Type} {e : Except Stop α} {f : α → Except Stop β} {stop : Stop}
    (h : (e >>= f) = .error stop) : e = .error stop ∨ ∃ a, e = .ok a ∧ f a = .error stop := by
  cases e
  case ok a => exact .inr ⟨a, rfl, h⟩
  case error => exact .inl (congrArg Except.error (Except.error.inj h))

-- A counter that cannot go on is no refusal.
theorem successor_ne_refuse {register : Register} : successor register counter ≠ refuse error := by
  rw [successor.eq_def]
  cases counter
  case none => simp [refuse]
  case some value => cases hnext : Counter.next? value <;> simp [refuse, hnext]

end

section

variable {r' : Resolution} {m n : Node} {lease : Option Lease} {block stamp : Option UInt64}
  {children children' : NodeId → List Node} {blocks blocks' : NodeId → List Block}

theorem ListDirectory.plan_missing (h : r.target = none) :
    plan path r children = refuse (.notFound path) := by
  rw [plan, h]

-- Children are asked for of directories only.
theorem ListDirectory.plan_congr (h : r'.target = r.target)
    (hchildren : ∀ n, r.target = some n → n.isDirectory → children' n.id = children n.id) :
    plan path r' children' = plan path r children := by
  rw [plan, plan, h]
  cases hn : r.target
  case none => rfl
  case some n =>
    by_cases hdir : n.isDirectory
    case pos => simp only [hchildren n hn hdir]
    case neg => simp [hdir]

theorem Delete.plan_missing (h : r.target = none) : plan path r children blocks = .ok ⟨false, []⟩ := by
  rw [plan, h]

theorem Delete.plan_root (h : r.target = some n) (hroot : n.isRoot) :
    plan path r children blocks = refuse (.invalidArgument "cannot delete the root") := by
  simp [plan, h, hroot]

-- But for the root, only a directory with entries is kept.
theorem Delete.plan_eq_refuse {error : OperationError}
    (hplan : plan path r children blocks = refuse error) :
    ∃ n, r.target = some n ∧ (¬n.isRoot → n.isDirectory ∧ children n.id ≠ []) := by
  cases hn : r.target
  case none => cases (plan_missing hn).symm.trans hplan
  case some n =>
    refine ⟨n, rfl, fun hroot => ?_⟩
    simp only [plan, hn, hroot, Bool.false_eq_true, if_false] at hplan
    by_cases hdir : n.isDirectory
    case neg => simp [hdir, refuse] at hplan
    case pos =>
      refine ⟨hdir, fun hnone => ?_⟩
      simp [hdir, hnone, refuse] at hplan

theorem Delete.plan_congr (hn : r.target = some n) (hm : r'.target = some m)
    (halike : m.Alike n) (hchildren : n.isDirectory → children' n.id = children n.id)
    (hblocks : ¬n.isDirectory → blocks' n.id = blocks n.id) :
    plan path r' children' blocks' = plan path r children blocks := by
  simp only [plan, hn, hm, Node.isRoot, halike.isDirectory_eq, halike.id_eq]
  by_cases hdir : n.isDirectory
  case pos => simp only [hdir, if_true, hchildren hdir]
  case neg => simp [hdir, hblocks hdir]

-- Children are asked for of directories only, and blocks of files.
theorem Delete.lockedPlan_congr (h : ∀ n, r.target = some n →
      (n.isDirectory → children' n.id = children n.id) ∧ (n.isFile → blocks' n.id = blocks n.id)) :
    lockedPlan path r children' blocks' = lockedPlan path r children blocks := by
  cases hn : r.target
  case none => simp only [lockedPlan, plan, hn]
  case some n =>
    obtain ⟨hchildren, hblocks⟩ := h n hn
    simp only [lockedPlan, hn]
    split
    case isTrue hkind =>
      by_cases hroot : n.isRoot
      case pos => rw [plan_root hn hroot, plan_root hn hroot]
      case neg =>
        refine plan_congr hn hn (.refl n) hchildren fun hdir => hblocks ?_
        simpa [hroot, hdir] using hkind
    case isFalse => rfl

theorem AddBlock.plan_missing (h : r.target = none) :
    plan path holder r lease block stamp = refuse (.notFound path) := by
  rw [plan, h]

theorem AddBlock.plan_misfit (h : r.target = some n) (hfile : ¬n.isFile) :
    plan path holder r lease block stamp = refuse (.notAFile path) := by
  simp [plan, h, hfile]

-- Without a file, nothing else counts.
theorem AddBlock.plan_unfit {lease' : Option Lease} {block' stamp' : Option UInt64}
    (h : ∀ n, r.target = some n → ¬n.isFile) :
    plan path holder r lease block stamp = plan path holder r lease' block' stamp' := by
  cases hn : r.target
  case none => rw [plan_missing hn, plan_missing hn]
  case some n => rw [plan_misfit hn (h n hn), plan_misfit hn (h n hn)]

theorem AddBlock.plan_unleased (h : r.target = some n) (hfile : n.isFile)
    (hlease : ¬lease.any (·.covers path)) : plan path holder r lease block stamp =
      refuse (.invalidArgument s!"{holder} holds no lease on {path}") := by
  simp [plan, h, hfile, hlease]

theorem AddBlock.plan_ne_refuse {error : OperationError} (h : r.target = some n) (hfile : n.isFile)
    (hlease : lease.any (·.covers path)) :
    plan path holder r lease block stamp ≠ refuse error := by
  intro hplan
  simp only [plan, h, hfile, hlease, Bool.not_true, Bool.false_eq_true, if_false] at hplan
  obtain hplan | ⟨_, -, hplan⟩ := bind_eq_error hplan
  · exact successor_ne_refuse hplan
  obtain hplan | ⟨_, -, hplan⟩ := bind_eq_error hplan
  · exact successor_ne_refuse hplan
  · cases hplan

theorem AddBlock.plan_congr (h : r'.target = r.target) :
    plan path holder r' lease block stamp = plan path holder r lease block stamp := by
  rw [plan, plan, h]

end

end Namespace

end NamespaceService
