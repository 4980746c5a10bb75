import Mathlib.Data.Fin.VecNotation
import NamespaceService.Proofs.Concurrency.Play
import NamespaceService.Proofs.Namespace.Counters
import NamespaceService.Proofs.Namespace.Hierarchy
import NamespaceService.Proofs.Transaction.Restarts

namespace NamespaceService

open Timeline Context

namespace Namespace

open UnitOfWork Session.NamespaceOperation

variable {σ : Timeline} {t u n : Nat} {c : Context} {path name holder : String}
  {changes : List Change} {config : TransactionConfig} {register : Register} {found : Option Row}

-- The counter that was locked is the one that the commit finds.
theorem counterIn_of_lookedUp (h : LookedUp σ t u c .write (.register register) found)
    (hok : σ.Accepts n c.tx changes) (hu : u ≤ n) :
    valueOf found = counterIn register (σ.rows n) :=
  congrArg valueOf (lookup_of_lookedUp h rfl (by decide) hok hu)

variable (hlock : config.rowLevelLock)

include hlock

theorem MakeDirectory.counted {a : NodeId}
    (o : Attempted σ config name (requests path) (task path) t) (hresult : o.result = .ok a)
    (hn : o.doneAt ≤ n) (hok : σ.Accepts n o.finish.tx changes) :
    Counted (σ.rows n) (.makeDirectory path) (.id a) o.finish.changes := by
  obtain ⟨_, c, _, _, counter, -, hc, -, hcounter, hplanned⟩ := attempted hlock o
  have ⟨effect, hplan, heffect, hchanges⟩ := hplanned.effect hresult
  rw [hplanned.tx_eq hc] at hok
  rw [counterIn_of_lookedUp hcounter hok (o.works.le.trans hn)] at hplan
  rw [← heffect, hchanges]
  exact plan_counted hplan

theorem CreateFile.counted {a : NodeId}
    (o : Attempted σ config name (requests path holder) (task path holder) t)
    (hresult : o.result = .ok a) (hn : o.doneAt ≤ n) (hok : σ.Accepts n o.finish.tx changes) :
    Counted (σ.rows n) (.createFile path holder) (.id a) o.finish.changes := by
  obtain ⟨_, c, _, _, counter, lease, -, hc, -, hcounter, -, hplanned⟩ := attempted hlock o
  have ⟨effect, hplan, heffect, hchanges⟩ := hplanned.effect hresult
  rw [hplanned.tx_eq hc] at hok
  rw [counterIn_of_lookedUp hcounter hok (o.works.le.trans hn)] at hplan
  rw [← heffect, hchanges]
  exact plan_counted hplan

theorem AddBlock.counted {a : Block}
    (o : Attempted σ config name (requests path holder) (task path holder) t)
    (hresult : o.result = .ok a) (hn : o.doneAt ≤ n) (hok : σ.Accepts n o.finish.tx changes) :
    Counted (σ.rows n) (.addBlock path holder) (.block a) o.finish.changes := by
  obtain ⟨_, c, _, _, _, block, stamp, -, hc, -, -, -, hblock, hstamp, hplanned⟩ :=
    attempted hlock o
  have ⟨effect, hplan, heffect, hchanges⟩ := hplanned.effect hresult
  have hu := o.works.le.trans hn
  rw [hplanned.tx_eq hc] at hok
  rw [counterIn_of_lookedUp hblock hok hu, counterIn_of_lookedUp hstamp hok hu] at hplan
  rw [← heffect, hchanges]
  exact plan_counted hplan

theorem Delete.uncounted {a : Bool} (o : Attempted σ config name (requests path) (task path) t)
    (hresult : o.result = .ok a) : Uncounted o.finish.changes := by
  obtain ⟨_, _, _, _, -, -, -, -, hplanned⟩ := attempted hlock o
  obtain ⟨effect, hplan, -, hchanges⟩ := hplanned.effect hresult
  exact hchanges ▸ plan_uncounted (lockedPlan_eq_ok hplan).1

theorem Rename.uncounted {source destination : String} {a : Unit}
    (o : Attempted σ config name (requests source destination) (task source destination) t)
    (hresult : o.result = .ok a) : Uncounted o.finish.changes := by
  obtain ⟨_, _, _, _, _, -, -, -, -, hplanned⟩ := attempted hlock o
  obtain ⟨effect, hplan, -, hchanges⟩ := hplanned.effect hresult
  exact hchanges ▸ plan_uncounted hplan

theorem fileInfo_uncounted {a : Option Node} (o : Attempted σ config name
      (RequestSet.ofRequests [.nodes .read (.paths [path] false)])
      (fun resolved => do return (← resolve resolved path).target) t)
    (hresult : o.result = .ok a) : Uncounted o.finish.changes := by
  obtain ⟨_, _, _, _, -, -, -, hplanned⟩ := fileInfo_attempted hlock o
  obtain ⟨effect, hplan, -, hchanges⟩ := hplanned.effect hresult
  cases hplan
  exact hchanges ▸ .nil

theorem ListDirectory.uncounted {a : List String}
    (o : Attempted σ config name (requests path) (task path) t) (hresult : o.result = .ok a) :
    Uncounted o.finish.changes := by
  obtain ⟨_, _, _, _, -, -, -, -, hplanned⟩ := attempted hlock o
  obtain ⟨effect, hplan, -, hchanges⟩ := hplanned.effect hresult
  exact hchanges ▸ plan_uncounted hplan

end Namespace

namespace Session.NamespaceOperation

open Namespace UnitOfWork Program

section

variable {σ : Timeline} {config : TransactionConfig} {α : Type} {name : String}
  {requests : Except Fault RequestSet} {task : Resolved → Task α} {value : α → Value}

-- The operation as a unit of work whose commits go with what they give.
theorem exists_counted (op : NamespaceOperation) (hlock : config.rowLevelLock) (σ : Timeline) :
    ∃ (α : Type) (name : String) (requests : Except Fault RequestSet) (task : Resolved → Task α)
      (value : α → Value), op.execute config = give config (.ofTask name requests task) value ∧
      (∀ resolved, Stage.Straight (task resolved)) ∧
      ∀ {t n changes a} (o : Attempted σ config (config.correlation name) requests task t),
        o.result = .ok a → o.doneAt ≤ n → σ.Accepts n o.finish.tx changes →
        Counted (σ.rows n) op (value a) o.finish.changes := by
  cases op
  case makeDirectory =>
    exact ⟨_, _, _, _, _, rfl, fun _ => makeDirectory_straight, MakeDirectory.counted hlock⟩
  case createFile =>
    exact ⟨_, _, _, _, _, rfl, fun _ => createFile_straight, CreateFile.counted hlock⟩
  case delete =>
    exact ⟨_, _, _, _, _, rfl, fun _ => delete_straight, fun o hresult _ _ =>
      .other nofun nofun nofun (Delete.uncounted hlock o hresult)⟩
  case rename =>
    exact ⟨_, _, _, _, _, rfl, fun _ => rename_straight, fun o hresult _ _ =>
      .other nofun nofun nofun (Rename.uncounted hlock o hresult)⟩
  case addBlock =>
    exact ⟨_, _, _, _, _, rfl, fun _ => addBlock_straight, AddBlock.counted hlock⟩
  case fileInfo =>
    exact ⟨_, _, _, _, _, rfl, fun _ => fileInfo_straight, fun o hresult _ _ =>
      .other nofun nofun nofun (fileInfo_uncounted hlock o hresult)⟩
  case listDirectory =>
    exact ⟨_, _, _, _, _, rfl, fun _ => listDirectory_straight, fun o hresult _ _ =>
      .other nofun nofun nofun (ListDirectory.uncounted hlock o hresult)⟩

-- What is left of the operation when an attempt begins.
def resume (config : TransactionConfig) (name : String) (requests : Except Fault RequestSet)
    (task : Resolved → Task α) (value : α → Value) (number left : Nat) :
    Program (Except Stop Value) := do
  let (result, _) ← (attempts config (config.correlation name) (.ofTask name requests task) number
    left ()).claimedBy (config.correlation name)
  return result.map value

theorem give_ofTask : give config (.ofTask name requests task) value =
    resume config name requests task value 1 (config.attempts - 1) := by
  rw [give, execute_ofTask]
  rfl

theorem resume_restarts (h : ∀ resolved, Stage.Straight (task resolved)) :
    Crew.Restarts (fun p => ∃ number left, p = resume config name requests task value number left)
      fun x => ∃ v, x = .ok v where
  falters := by
    rintro _ ⟨number, left, rfl⟩
    let attempts number left := (attempts config (config.correlation name)
      (ofTask name requests task) number left ()).claimedBy (config.correlation name)
    have hclaimed : (attempts number left).Falters (Returns (fun p => ∃ number left,
        p = attempts number left) fun r => ∀ a, r.1 ≠ .ok a) := by
      refine (attempts_falters fun resolved => (h resolved).breaks).claimedBy fun q hq => ?_
      exact hq.claimedBy fun q ⟨number, left, hq⟩ => .of_fresh ⟨number, left, hq ▸ rfl⟩
    refine hclaimed.bind (fun q hq => hq.bind ?_ ?_) fun _ => trivial
    · rintro _ ⟨number, left, rfl⟩
      exact .of_fresh ⟨number, left, rfl⟩
    · rintro ⟨r, _⟩ hr
      refine .inr ?_
      rintro ⟨v, hv⟩
      cases r
      case ok a => exact hr a rfl
      case error => cases hv
  commitsLast := by
    rintro _ ⟨number, left, rfl⟩
    have hreads := fun resolved => (h resolved).reads
    refine (attempts_commitsLast hreads).claimedBy.bind (fun _ => trivial) ?_
    rintro _ ⟨a, ha⟩
    exact ⟨value a, congrArg (Except.map value) ha⟩

theorem resume_runs {t u : Nat} {v : Value} {number left : Nat}
    (h : (resume config name requests task value number left).Runs σ t (.ok v) u) :
    ∃ (o : Attempted σ config (config.correlation name) requests task t) (n : Nat) (a : α),
      v = value a ∧ o.result = .ok a ∧ o.doneAt ≤ n ∧
      σ.Accepts n o.finish.tx o.finish.changes := by
  obtain ⟨⟨r, _⟩, w, hruns, heq, -⟩ := runs_bind.mp h
  cases r
  case error => cases heq
  case ok a =>
    obtain ⟨o, n, hresult, hn, -, hok⟩ := attempts_runs_ok (runs_claimedBy.mp hruns)
    exact ⟨o, n, a, (Except.ok.inj heq).symm, hresult, hn, hok⟩

end

section

variable {ι : Type} [DecidableEq ι] {op : ι → NamespaceOperation} {config : ι → TransactionConfig}
  {moves : List (Move ι)} {i : ι} {m n : Nat}

omit [DecidableEq ι] in
theorem crew_ready (op : ι → NamespaceOperation) (config : ι → TransactionConfig) :
    (crew op config).Ready where
  plain _ := execute_plain
  coherent := Store.Tidy.new.coherent

-- The value of a member, once it is settled, goes with the one commit that the member has made.
structure Numbers (op : ι → NamespaceOperation) (config : ι → TransactionConfig)
    (moves : List (Move ι)) (i : ι) (m : Nat) (value : Value) (changes : List Change) : Prop where
  unique {n : Nat} : (crew op config).committer? moves n = some i → n = m
  settles : (((crew op config).play moves).program i).Settles (· = .ok value)
  counted : Counted ((crew op config).past moves m).world.store.rows (op i) value changes
  rows : ((crew op config).past moves (m + 1)).world.store.rows =
    ((crew op config).past moves m).world.store.rows.applyAll changes

-- Whoever gives a value has committed.
theorem exists_committer {v : Value} (hx : ((crew op config).play moves).result? i = some (.ok v)) :
    ∃ m, (crew op config).committer? moves m = some i := by
  obtain ⟨α, name, requests, task, value, hexecute, hstraight⟩ := exists_task (op i) (config i)
  obtain ⟨t, u, ⟨number, left, hfresh⟩, hruns⟩ :=
    Crew.exists_runs_of_done (resume_restarts hstraight)
      ⟨1, _, hexecute.trans give_ofTask⟩ (crew_ready op config) (Crew.program_of_result hx) ⟨v, rfl⟩
  rw [hfresh] at hruns
  obtain ⟨o, n, a, rfl, hresult, hn, hok⟩ := resume_runs hruns
  exact ⟨n, (Crew.committer?_eq_some_iff (crew_ready op config)).mpr ⟨_, _, hok⟩⟩

section

variable (hlock : ∀ i, (config i).rowLevelLock)

include hlock

theorem exists_numbers (hc : (crew op config).committer? moves m = some i) :
    ∃ value changes, Numbers op config moves i m value changes := by
  obtain ⟨α, name, requests, task, value, hexecute, hstraight, hcounted⟩ :=
    exists_counted (op i) (hlock i) (Crew.view (crew_ready op config) moves i)
  obtain ⟨t, _, u, ⟨number, left, hfresh⟩, ⟨v, rfl⟩, hruns, hsettles, hunique⟩ :=
    Crew.exists_runs_of_committer (resume_restarts hstraight)
      ⟨1, _, hexecute.trans give_ofTask⟩ (crew_ready op config) hc
  rw [hfresh] at hruns
  obtain ⟨o, n, a, rfl, hresult, hn, hok⟩ := resume_runs hruns
  obtain rfl : m = n :=
    (hunique n ((Crew.committer?_eq_some_iff (crew_ready op config)).mpr ⟨_, _, hok⟩)).symm
  exact ⟨value a, o.finish.changes,
    { unique := hunique _
      settles := hsettles
      counted := hcounted o hresult hn hok
      rows := hok.rows }⟩

-- The counters have come as far as there are commits of each kind.
theorem past_counts (n : Nat) : ((crew op config).past moves n).world.store.rows.Counts
    (((crew op config).orderBefore moves n).countP fun i => (op i).makesNode)
    (((crew op config).orderBefore moves n).countP fun i => (op i).addsBlock) := by
  induction n
  case zero => exact .new
  case succ n ih =>
    rw [Crew.orderBefore_succ, List.countP_append, List.countP_append]
    cases hc : (crew op config).committer? moves n
    case none =>
      rw [(crew_ready op config).rows_succ hc]
      exact ih
    case some i =>
      obtain ⟨value, changes, h⟩ := exists_numbers hlock hc
      rw [h.rows]
      simpa [List.countP_cons] using h.counted.counts ih

-- The nodes that are made, and the blocks that are added, are numbered in the order of the commits,
-- whatever faults come up. Whoever has committed only reports its number any more, and nobody else
-- gives a value.
theorem numbered_play : ((crew op config).order moves).Nodup ∧
    (∀ i v, ((crew op config).play moves).result? i = some (.ok v) →
      i ∈ (crew op config).order moves) ∧
    (∀ k i, (((crew op config).order moves).filter fun i => (op i).makesNode)[k]? = some i →
      ∃ id : NodeId, id.value.toNat = k + 1 ∧
        (((crew op config).play moves).program i).Settles (· = .ok (.id id))) ∧
    ∀ k i, (((crew op config).order moves).filter fun i => (op i).addsBlock)[k]? = some i →
      ∃ b : Block, b.id.value.toNat = k + 1 ∧ b.generationStamp.toNat = 1000 + (k + 1) ∧
        (((crew op config).play moves).program i).Settles (· = .ok (.block b)) := by
  refine ⟨Crew.order_nodup fun hm hn => ?_, fun i v hx => ?_, fun k i hk => ?_, fun k i hk => ?_⟩
  · obtain ⟨_, _, h⟩ := exists_numbers hlock hn
    exact h.unique hm
  · exact Crew.mem_order_iff.mpr (exists_committer hx)
  · obtain ⟨hmakes, m, hc, hcount⟩ := Crew.exists_of_filter_orderBefore hk
    obtain ⟨_, _, h⟩ := exists_numbers hlock hc
    obtain ⟨id, rfl, hid⟩ := h.counted.node_eq (past_counts hlock m) hmakes
    exact ⟨⟨id⟩, hcount ▸ hid, h.settles⟩
  · obtain ⟨hadds, m, hc, hcount⟩ := Crew.exists_of_filter_orderBefore hk
    obtain ⟨_, _, h⟩ := exists_numbers hlock hc
    obtain ⟨b, rfl, hid, hstamp⟩ := h.counted.block_eq (past_counts hlock m) hadds
    exact ⟨b, hcount ▸ hid, hcount ▸ hstamp, h.settles⟩

end

end

-- The file comes before the directory, but meets a fault and then a conflict; so it is numbered second.
theorem numbered_play_restarted :
    let op : Fin 3 → NamespaceOperation :=
      ![.createFile "/f" "c", .makeDirectory "/d", .addBlock "/f" "c"]
    let moves : List (Move (Fin 3)) := .fault .find (.unavailable "store") ::
      (List.replicate 40 [.turn 0, .turn 1]).flatten ++ List.replicate 20 (.turn 2)
    TransactionConfig.rowLevelLock {} ∧ (crew op fun _ => {}).order moves = [1, 0, 2] ∧
    (∃ id : NodeId, id.value.toNat = 2 ∧
      (((crew op fun _ => {}).play moves).program 0).Settles (· = .ok (.id id))) ∧
    ∃ b : Block, b.id.value.toNat = 1 ∧ b.generationStamp.toNat = 1001 ∧
      (((crew op fun _ => {}).play moves).program 2).Settles (· = .ok (.block b)) := by
  intro op moves
  obtain ⟨-, -, hnodes, hblocks⟩ := @numbered_play (Fin 3) _ op (fun _ => {}) moves fun _ => rfl
  exact ⟨rfl, by decide +kernel, hnodes 1 0 (by decide +kernel), hblocks 0 2 (by decide +kernel)⟩

end Session.NamespaceOperation

end NamespaceService
