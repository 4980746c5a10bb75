import NamespaceService.Proofs.Transaction.Confined
import NamespaceService.Transaction.Acquire

namespace NamespaceService

open NamespaceService.Action Stage

-- How strongly the rows of a list are locked may depend on how strongly another row is.
inductive Reading : {α : Type} → Action α → Prop
  | pure {α : Type} {a : α} : Reading (pure a)
  | throw {α : Type} {fault : Fault} (h : ¬fault.isTransient) : Reading (throw fault : Action α)
  | bind {α β : Type} {m : Action α} {f : α → Action β} (hm : Reading m)
    (hf : ∀ a, Reading (f a)) : Reading (m >>= f)
  | log {level : Level} {message : String} : Reading (log level message)
  | lockFind {kind : LockKind} {finder : Finder} : Reading (lockFind kind finder)
  | lockList {kind : LockKind} {finder : Finder} : Reading (lockList kind finder)
  | probe {finder : Finder} : Reading (probe finder)
  | find {finder : Finder} : Reading (find finder)
  | findList {finder : Finder} : Reading (findList finder)
  | lockListAlike {α : Type} {key : Key} {finder : Finder} {f : List Row → Action α}
    (hf : ∀ found, Reading (f found)) : Reading (get >>= fun c =>
      Action.lockList ((c.locks.kindOf? key).getD .readCommitted) finder >>= f)

namespace Reading

variable {α β : Type} {m m' : Action α}

theorem straight (h : Reading m) : Straight m := by
  induction h
  case pure => exact .pure
  case throw h => exact .throw h
  case bind hm hf => exact .bind hm hf
  case log => exact .log
  case lockFind => exact .lockFind
  case lockList => exact .lockList
  case probe => exact .probe
  case find => exact .find
  case findList => exact .findList
  case lockListAlike hf => exact .get (fun _ => Straight.lockList.bind hf) fun _ _ => rfl

theorem ite {p : Prop} [Decidable p] (hm : Reading m) (hm' : Reading m') :
    Reading (if p then m else m') := by
  split
  case isTrue => exact hm
  case isFalse => exact hm'

theorem mapM {f : α → Action β} {l : List α} (hf : ∀ a, Reading (f a)) : Reading (l.mapM f) := by
  induction l
  case nil => exact .pure
  case cons a l ih =>
    rw [List.mapM_cons]
    exact (hf a).bind fun _ => ih.bind fun _ => .pure

theorem forM {f : α → Action PUnit} {l : List α} (hf : ∀ a, Reading (f a)) :
    Reading (l.forM f) := by
  induction l
  case nil => exact .pure
  case cons a l ih => exact (hf a).bind fun _ => ih

theorem foldlM {f : β → α → Action β} {l : List α} {b : β} (hf : ∀ b a, Reading (f b a)) :
    Reading (l.foldlM f b) := by
  induction l generalizing b
  case nil => exact .pure
  case cons a l ih => exact (hf b a).bind fun _ => ih

theorem ofExcept {result : Except Fault α}
    (h : ∀ fault, result = .error fault → ¬fault.isTransient) : Reading (Action.ofExcept result) := by
  cases result
  case ok a => exact .pure
  case error fault => exact .throw (h fault rfl)

end Reading

namespace Action

variable {kind : LockKind} {finder : Finder} {mode : NodeMode}

theorem lockNode_reading : Reading (lockNode kind finder) :=
  Reading.lockFind.bind fun _ => .pure

theorem findNode_reading : Reading (findNode finder) :=
  Reading.find.bind fun _ => .pure

theorem settleKind_reading {want : Want} {level : Nat} :
    Reading (settleKind mode want level finder) := by
  rw [settleKind]
  refine .ite (Reading.probe.bind fun found => ?_) .pure
  split <;> exact .pure

theorem noteDeadEnd_reading {here : Position} {rest : List Position} {node : Node} :
    Reading (noteDeadEnd here rest node) := by
  rw [noteDeadEnd]
  refine .ite ?_ .pure
  split
  case h_1 => exact .log
  case h_2 => exact .pure

theorem lockPosition_reading {paths rest : List Position} {locked : LockedAt} {here : Position} :
    Reading (lockPosition mode paths locked here rest) := by
  rw [lockPosition]
  split
  case h_2 => exact .pure
  case h_1 =>
    refine settleKind_reading.bind fun kind => ?_
    split
    case h_2 => exact .pure
    case h_1 =>
      refine lockNode_reading.bind fun node => ?_
      split
      case h_2 => exact .pure
      case h_1 => exact noteDeadEnd_reading.bind fun _ => .pure

theorem walk_reading {paths rest : List Position} {locked : LockedAt} :
    Reading (walk mode paths locked rest) := by
  induction rest generalizing locked
  case nil => exact .pure
  case cons here rest ih => exact lockPosition_reading.bind fun _ => ih

theorem bind_fails {α β : Type} {x : Except Fault α} {f : α → Except Fault β} {fault : Fault}
    (h : x >>= f = .error fault) : x = .error fault ∨ ∃ a, f a = .error fault := by
  cases x
  case error =>
    cases h
    exact .inl rfl
  case ok a => exact .inr ⟨a, h⟩

theorem parsed_fails {paths : List String} {fault : Fault}
    (h : paths.mapM parsePath = .error fault) : ¬fault.isTransient := by
  induction paths
  case nil => cases h
  case cons path paths ih =>
    rw [List.mapM_cons] at h
    obtain hpath | ⟨_, h⟩ := bind_fails h
    · rw [parsePath] at hpath
      split at hpath <;> cases hpath
      exact Bool.false_ne_true
    · obtain hpaths | ⟨_, h⟩ := bind_fails h
      · exact ih hpaths
      · cases h

theorem lockPaths_reading {paths : List String} : Reading (lockPaths mode paths) :=
  (Reading.ofExcept fun _ => parsed_fails).bind fun _ => walk_reading.bind fun _ =>
    (Reading.forM fun _ => .log).bind fun _ => .pure

theorem lockPath_reading {path : String} : Reading (lockPath mode path) :=
  lockPaths_reading.bind fun _ => .pure

theorem lockChainFrom_reading {levels level : Nat} {leafIsDirectory : Bool} {parent : Option Node}
    {chain : List Node} : Reading (lockChainFrom mode levels leafIsDirectory level parent chain) := by
  induction chain generalizing level parent
  case nil => exact .pure
  case cons expected rest ih =>
    rw [lockChainFrom]
    refine lockNode_reading.bind fun node => ?_
    split
    case h_1 => exact Reading.log.bind fun _ => .pure
    case h_2 => exact .ite (ih.bind fun _ => .pure) (Reading.log.bind fun _ => .pure)

theorem lockChildren_reading {directories : List NodeId} : Reading (lockChildren directories) :=
  .mapM fun _ => .lockListAlike fun _ => .pure

theorem lockBlocks_reading {target : BlockTarget} {files : List NodeId} :
    Reading (lockBlocks kind target files) := by
  cases target
  case byId id owner => exact Reading.lockFind.bind fun _ => .pure
  case ofResolvedFiles => exact (Reading.mapM fun _ => .lockList).bind fun _ => .pure

theorem lockReplicas_reading {blocks : List Block} {finder : BlockId → Finder} :
    Reading (lockReplicas kind blocks finder) :=
  (Reading.mapM fun _ => .lockList).bind fun _ => .pure

theorem lockRegisters_reading {registers : List Register} :
    Reading (lockRegisters kind registers) :=
  (Reading.mapM fun _ => .lockFind).bind fun _ => .pure

theorem acquireOne_reading {r : Resolved} {request : LockRequest} :
    Reading (acquireOne r request) := by
  cases request
  case nodes mode target =>
    cases target
    case paths paths children =>
      exact lockPaths_reading.bind fun _ => .ite (lockChildren_reading.bind fun _ => .pure) .pure
    case chain chain => exact lockChainFrom_reading.bind fun _ => .pure
  case blocks => exact lockBlocks_reading.bind fun _ => .pure
  case lease => exact Reading.lockFind.bind fun _ => .pure
  case replicas => exact lockReplicas_reading.bind fun _ => .pure
  case replicasUnderConstruction => exact lockReplicas_reading.bind fun _ => .pure
  case registers => exact lockRegisters_reading.bind fun _ => .pure

theorem validate_fails {requests : RequestSet} {fault : Fault}
    (h : requests.validate = .error fault) : ¬fault.isTransient := by
  have hblocks : ∀ f, requests.checkBlocks = .error f → ¬f.isTransient := by
    intro f hf
    rw [RequestSet.checkBlocks] at hf
    repeat' split at hf
    all_goals cases hf
    exact Bool.false_ne_true
  have hreplicas : ∀ f, requests.checkReplicas = .error f → ¬f.isTransient := by
    intro f hf
    rw [RequestSet.checkReplicas] at hf
    split at hf <;> cases hf
    exact Bool.false_ne_true
  have hchain : ∀ f, requests.checkChain = .error f → ¬f.isTransient := by
    intro f hf
    rw [RequestSet.checkChain] at hf
    repeat' split at hf
    all_goals cases hf
    exact Bool.false_ne_true
  obtain h | ⟨_, h⟩ := bind_fails h
  · exact hblocks fault h
  · exact (bind_fails h).elim (hreplicas fault) fun ⟨_, h⟩ => hchain fault h

theorem acquire_reading {requests : RequestSet} : Reading (acquire requests) :=
  (Reading.ofExcept fun _ => validate_fails).bind fun _ => .foldlM fun _ _ => acquireOne_reading

end Action

theorem RequestSet.ofRequests_fails {requests : List LockRequest} {fault : Fault}
    (h : ofRequests requests = .error fault) : ¬fault.isTransient := by
  rw [ofRequests] at h
  generalize (SortedBy.empty : RequestSet) = start at h
  induction requests generalizing start
  case nil => cases h
  case cons request requests ih =>
    rw [List.foldlM_cons] at h
    obtain hadd | ⟨next, h⟩ := Action.bind_fails h
    · rw [add] at hadd
      split at hadd <;> cases hadd
      exact Bool.false_ne_true
    · exact ih next h

end NamespaceService
