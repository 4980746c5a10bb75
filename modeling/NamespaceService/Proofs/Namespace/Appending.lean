import NamespaceService.Proofs.Namespace.Histories

namespace NamespaceService.Session.NamespaceOperation

open Namespace UnitOfWork

variable {past : History} {rows : Rows} {path holder : String} {p : Position} {b : Block}

-- There is a file at the path.
def FileAt (rows : Rows) (path : String) : Prop :=
  ∃ p n, Path.components path = .ok p ∧ rows.place p = some n ∧ n.isFile

namespace Leads

theorem allows_addBlock_iff (h : Leads past rows) :
    (rows.tree h.arranged).Allows (.addBlock path holder) ↔
      Opened past path holder ∧ FileAt rows path := by
  refine and_congr h.leased_iff ?_
  simp only [Rows.isFile_iff, FileAt, exists_and_left]

theorem addBlock_iff (h : Leads past rows) {x : Except Stop Value}
    (hx : ((addBlock path holder).outcome false rows).map Effect.result = x) :
    (∃ b, x = .ok (.block b)) ∨ x = .error .overflow ↔
      Opened past path holder ∧ FileAt rows path := by
  rw [← h.allows_addBlock_iff]
  obtain ⟨h', hstep⟩ | ⟨hallows, hover, -⟩ := outcome_cases h.arranged (.addBlock path holder)
  case inr => exact iff_of_true (.inr (hx.symm.trans hover)) hallows
  case inl =>
    rw [hx] at hstep
    rw [← hstep.isOk_iff]
    constructor
    case mp =>
      rintro (⟨b, rfl⟩ | rfl)
      · exact ⟨_, rfl⟩
      · cases hstep
    case mpr =>
      rintro ⟨value, rfl⟩
      cases hstep
      exact .inl ⟨_, rfl⟩

theorem addBlock_iff_of_file (h : Leads past rows) (hfile : FileAt rows path) (holder : String) :
    (∃ b, ((addBlock path holder).outcome false rows).map Effect.result = .ok (.block b)) ∨
      ((addBlock path holder).outcome false rows).map Effect.result = .error .overflow ↔
        Opened past path holder :=
  (h.addBlock_iff rfl).trans (and_iff_left hfile)

-- The block belongs to the file at the path.
theorem owner_eq (h : Leads past rows)
    (hx : ((addBlock path holder).outcome false rows).map Effect.result = .ok (.block b)) :
    ∃ p n, Path.components path = .ok p ∧ rows.place p = some n ∧ n.isFile ∧ n.id = b.owner := by
  obtain ⟨h', hstep⟩ | ⟨-, hover, -⟩ := outcome_cases h.arranged (.addBlock path holder)
  case inr => cases hx.symm.trans hover
  case inl =>
    rw [hx] at hstep
    obtain ⟨p, e, hp, hfile, hkind, howner⟩ := hstep.appended
    obtain ⟨n, hn, rfl⟩ := Option.map_eq_some_iff.mp hfile
    exact ⟨p, n, hp, hn, decide_eq_true hkind, howner⟩

-- Exactly one operation has made the file.
theorem maker_iff {n : Node} (h : Leads past rows) (hn : rows.place p = some n) (hfile : n.isFile) :
    ∃ path holder, ∀ op, (op, .ok (.id n.id)) ∈ past ↔ op = .createFile path holder := by
  obtain ⟨path, holder, hmade⟩ := h.made hn hfile
  refine ⟨path, holder, fun op => ⟨fun hop => ?_, fun hop => hop ▸ hmade⟩⟩
  exact congrArg Prod.fst (h.once hop hmade rfl rfl)

end Leads

-- After any history, an operation to append gives a block exactly if the holder has made a file
-- under this very path and there is a file at the path now. It need not be the same file, but it is
-- if nothing has been taken from the place since.
theorem addBlock_after (ops : List (NamespaceOperation × TransactionConfig)) (path holder : String)
    (config : TransactionConfig) : ∃ results w x w',
    (executeAll ops).run { store := .new } = some (results, w) ∧
    ((addBlock path holder).execute config).run w = some (x, w') ∧
    let past := (ops.map Prod.fst).zip results
    ((∃ b, x = .ok (.block b)) ∨ x = .error .overflow ↔
      Opened past path holder ∧ FileAt w.store.rows path) ∧
    ∀ b, x = .ok (.block b) → ∃ p n, Path.components path = .ok p ∧
      w.store.rows.place p = some n ∧ n.isFile ∧ n.id = b.owner ∧
      (∃ path' holder', ∀ op, (op, .ok (.id b.owner)) ∈ past ↔ op = .createFile path' holder') ∧
      ∀ before after id, past = before ++ (.createFile path holder, .ok (.id id)) :: after →
        (∀ e ∈ after, ¬FileTree.Displaces p e.1 e.2) → b.owner = id := by
  obtain ⟨results, w, hrun, hcalm, -, h⟩ := Leads.new.executeAll (w := { store := .new }) .new ops
  obtain ⟨w', hrun', -, -⟩ := h.execute hcalm (.addBlock path holder) config
  refine ⟨results, w, _, w', hrun, hrun', h.addBlock_iff rfl, fun b hb => ?_⟩
  obtain ⟨p, n, hp, hn, hfile, howner⟩ := h.owner_eq hb
  refine ⟨p, n, hp, hn, hfile, howner, howner ▸ h.maker_iff hn hfile, ?_⟩
  intro before after id hpast hafter
  obtain ⟨m, hm, rfl⟩ := h.kept hp hpast hafter
  cases hn.symm.trans hm
  exact howner.symm

-- Blocks are added only to files that their holder has made.
def OwnOnly (past : History) : Prop :=
  ∀ path holder b, (.addBlock path holder, .ok (.block b)) ∈ past →
    ∃ path', (.createFile path' holder, .ok (.id b.owner)) ∈ past

def givenId? : Except Stop Value → Option NodeId
  | .ok (.id id) => some id
  | _ => none

def ownerOfBlock? : Except Stop Value → Option NodeId
  | .ok (.block b) => some b.owner
  | _ => none

theorem ownerOfBlock?_eq_some_iff {x : Except Stop Value} {owner : NodeId} :
    ownerOfBlock? x = some owner ↔ ∃ b, x = .ok (.block b) ∧ b.owner = owner := by
  constructor
  case mp =>
    intro h
    rw [ownerOfBlock?.eq_def] at h
    split at h
    case h_1 b => exact ⟨b, rfl, Option.some.inj h⟩
    case h_2 => cases h
  case mpr =>
    rintro ⟨b, rfl, rfl⟩
    rfl

-- The file is deleted, and another holder makes a new one under the same path.
def reopened : List (NamespaceOperation × TransactionConfig) :=
  [(.createFile "/f" "c", {}), (.delete "/f", {}), (.createFile "/f" "d", {}),
    (.addBlock "/f" "c", {})]

-- The first holder appends to the file of the second.
theorem reopened_not_ownOnly : ∃ results w,
    (executeAll reopened).run { store := .new } = some (results, w) ∧
      ¬OwnOnly ((reopened.map Prod.fst).zip results) := by
  obtain ⟨results, w, hrun, -⟩ := Leads.new.executeAll (w := { store := .new }) .new reopened
  have hcheck : ((executeAll reopened).run { store := .new }).any fun run =>
      run.1.map givenId? = [some ⟨1⟩, none, some ⟨2⟩, none] &&
        run.1.map ownerOfBlock? = [none, none, none, some ⟨2⟩] := by
    decide +kernel
  rw [hrun] at hcheck
  obtain ⟨hids, howners⟩ : results.map givenId? = [some ⟨1⟩, none, some ⟨2⟩, none] ∧
      results.map ownerOfBlock? = [none, none, none, some ⟨2⟩] := by simpa using hcheck
  obtain _ | ⟨x₀, _ | ⟨x₁, _ | ⟨x₂, _ | ⟨x₃, rest⟩⟩⟩⟩ := results
  all_goals simp at hids howners
  obtain ⟨b, rfl, howner⟩ := ownerOfBlock?_eq_some_iff.mp howners.2.2.2.1
  refine ⟨_, w, hrun, fun hown => ?_⟩
  obtain ⟨path', hmade⟩ := hown "/f" "c" b (by simp [reopened])
  obtain ⟨-, rfl⟩ : path' = "/f" ∧ x₀ = .ok (.id b.owner) := by simpa [reopened, eq_comm] using hmade
  simp [givenId?, howner] at hids

end NamespaceService.Session.NamespaceOperation
