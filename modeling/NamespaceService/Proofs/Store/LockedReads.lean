import NamespaceService.Proofs.Store.Versions
import NamespaceService.Store.Direct

namespace NamespaceService.Store

-- A call of some transaction, or work outside any transaction.
inductive Step
  | call (call : Call)
  | insert (row : Row)
  | allocate

variable {s s' s₁ s₂ s₃ : Store} {tx : TxId} {key : Key} {value : Option Row} {call : Call}
  {step : Step} {steps : List Step} {changes : List Change} {id : NodeId}

-- A counter at its end cannot go on, and stays as it is.
def take (s : Store) : Step → Store
  | .call call => (s.answer call).2
  | .insert row => s.insert row
  | .allocate => (s.allocate.map Prod.snd).getD s

def through (s : Store) (steps : List Step) : Store :=
  steps.foldl take s

-- On the way a node id is allocated.
def Allocates : Store → List Step → Prop
  | _, [] => False
  | s, step :: steps => (step = .allocate ∧ s.allocate ≠ none) ∨ (s.take step).Allocates steps

-- Under a lock the call reads the row of a key, or finds it missing.
inductive Reads (s : Store) (tx : TxId) : Call → Key → Option Row → Prop
  | find {kind : LockKind} {finder : Finder} {key : Key} (strong : kind ≠ .readCommitted)
      (rests : restsOn? finder (s.rows.lookup finder) = some key) :
    Reads s tx (.find tx kind finder) key (s.rows.lookup finder)
  | findList {kind : LockKind} {finder : Finder} {row : Row} (strong : kind ≠ .readCommitted)
      (listed : row ∈ s.rows.lookupList finder) :
    Reads s tx (.findList tx kind finder) row.key (some row)

theorem find?_of_restsOn? {finder : Finder}
    (h : restsOn? finder (s.rows.lookup finder) = some key) :
    s.rows.find? key = s.rows.lookup finder := by
  cases hfound : s.rows.lookup finder
  case none =>
    rw [hfound] at h
    rw [← hfound, Rows.lookup_of_key? h]
  case some row =>
    rw [hfound] at h
    cases h
    exact SortedBy.find?_of_mem (Rows.mem_of_lookup hfound).1

theorem Reads.find?_eq (h : s.Reads tx call key value) : s.rows.find? key = value := by
  cases h
  case find hrests => exact find?_of_restsOn? hrests
  case findList hlisted => exact SortedBy.find?_of_mem (Rows.mem_lookupList_iff.mp hlisted).1

theorem Reads.restsOn (h : s.Reads tx call key value) (hs : s.Coherent) :
    (s.answer call).2.RestsOn tx key (s.version key) := by
  cases h
  case find hstrong hrests => exact find_restsOn hs hstrong hrests
  case findList hstrong hlisted => exact findList_restsOn hs hstrong hlisted

theorem Reads.rows_eq (h : s.Reads tx call key value) (hs : s.Coherent) :
    (s.answer call).2.rows = s.rows := by
  cases h
  case find => exact find_rows hs
  case findList => exact findList_rows hs

-- What holds of one key from a store to a later one.
structure Keeps (key : Key) (s s' : Store) : Prop where
  version_le : s.version key ≤ s'.version key
  find?_eq : s'.version key = s.version key → s'.rows.find? key = s.rows.find? key

namespace Keeps

theorem refl (key : Key) (s : Store) : Keeps key s s where
  version_le := le_rfl
  find?_eq _ := rfl

theorem trans (h : Keeps key s₁ s₂) (h' : Keeps key s₂ s₃) : Keeps key s₁ s₃ where
  version_le := h.version_le.trans h'.version_le
  find?_eq hv := by
    have hle := h.version_le
    have hle' := h'.version_le
    exact (h'.find?_eq (by omega)).trans (h.find?_eq (by omega))

end Keeps

theorem insert_keeps (key : Key) (s : Store) (row : Row) : Keeps key s (s.insert row) where
  version_le := by
    rw [insert, put_version, bump_version]
    omega
  find?_eq hv := by
    rw [insert, put_version, bump_version] at hv
    have hne : row.key ≠ key := fun heq => by simp [heq] at hv
    rw [insert, put_rows, bump_rows, SortedBy.find?_insert, if_neg hne]

theorem allocate_eq_some (h : s.allocate = some (id, s')) :
    ∃ next, Counter.next? ((s.counter? .nodeIdCounter).getD 0) = some next ∧
      s' = s.put (.register ⟨.nodeIdCounter, next⟩) := by
  obtain ⟨next, hnext, h⟩ := Option.bind_eq_some_iff.mp h
  cases h
  exact ⟨next, hnext, rfl⟩

theorem take_allocate : s.allocate = none ∧ s.take .allocate = s ∨
    ∃ id, s.allocate = some (id, s.take .allocate) := by
  rw [take]
  cases s.allocate
  case none => exact .inl ⟨rfl, rfl⟩
  case some answer => exact .inr ⟨answer.1, rfl⟩

theorem take_keeps (hs : s.Coherent) (h : ¬(key = .register .nodeIdCounter ∧ s.Allocates [step])) :
    Keeps key s (s.take step) := by
  cases step
  case call call =>
    have hlater := (hs.answer call).1
    exact ⟨hlater.version_le key, hlater.find?_eq⟩
  case insert row => exact insert_keeps key s row
  case allocate =>
    obtain ⟨-, heq⟩ | ⟨id, hid⟩ := s.take_allocate
    · rw [heq]
      exact .refl key s
    · have ⟨next, _, heq⟩ := allocate_eq_some hid
      have hne : key ≠ .register .nodeIdCounter := fun hkey =>
        h ⟨hkey, .inl ⟨rfl, by simp [hid]⟩⟩
      rw [heq]
      refine ⟨le_rfl, fun _ => ?_⟩
      rw [put_rows]
      exact (SortedBy.find?_insert ..).trans (if_neg (Ne.symm hne))

theorem take_coherent (hs : s.Coherent) : (s.take step).Coherent := by
  cases step
  case call call => exact (hs.answer call).2
  case insert row =>
    refine ⟨hs.quiet, fun hread => (hs.observed_le hread).trans ?_⟩
    exact (insert_keeps _ s row).version_le
  case allocate =>
    obtain ⟨-, heq⟩ | ⟨id, hid⟩ := s.take_allocate
    · rwa [heq]
    · have ⟨next, _, heq⟩ := allocate_eq_some hid
      exact heq ▸ hs.of_eq rfl rfl rfl

theorem mem_observed_take {read : Key × Nat} (hs : s.Coherent) (h : read ∈ s.observed tx) :
    read ∈ (s.take step).observed tx := by
  cases step
  case call call => exact (hs.answer call).1.observed h
  case insert row => exact h
  case allocate =>
    obtain ⟨-, heq⟩ | ⟨id, hid⟩ := s.take_allocate
    · rwa [heq]
    · have ⟨next, _, heq⟩ := allocate_eq_some hid
      exact heq ▸ h

def nodeCount (s : Store) : Nat :=
  ((s.counter? .nodeIdCounter).getD 0).toNat

theorem nodeCount_congr
    (h : s'.rows.find? (.register .nodeIdCounter) = s.rows.find? (.register .nodeIdCounter)) :
    s'.nodeCount = s.nodeCount := by
  rw [nodeCount, nodeCount, counter?, counter?, get?, get?, h]

-- The version of the counter does not tell of a new id, but its value does.
theorem nodeCount_allocate (h : s.allocate = some (id, s')) : s'.nodeCount = s.nodeCount + 1 := by
  have ⟨next, hnext, heq⟩ := allocate_eq_some h
  have hfind : s'.rows.find? (.register .nodeIdCounter) = some (.register ⟨.nodeIdCounter, next⟩) := by
    rw [heq, put_rows]
    exact (SortedBy.find?_insert ..).trans (if_pos rfl)
  rw [nodeCount, counter?, get?, hfind]
  exact Counter.toNat_of_add? hnext

-- As long as the version of the counter stays, its value goes up with each new id and never down.
structure Counts (s s' : Store) (steps : List Step) : Prop where
  version_le : s.version (.register .nodeIdCounter) ≤ s'.version (.register .nodeIdCounter)
  le : s'.version (.register .nodeIdCounter) = s.version (.register .nodeIdCounter) →
    s.nodeCount ≤ s'.nodeCount
  lt : s'.version (.register .nodeIdCounter) = s.version (.register .nodeIdCounter) →
    s.Allocates steps → s.nodeCount < s'.nodeCount

theorem take_counts (hs : s.Coherent) : Counts s (s.take step) [step] := by
  by_cases halloc : s.Allocates [step]
  case neg =>
    have hkeeps : Keeps (.register .nodeIdCounter) s (s.take step) :=
      take_keeps hs fun h => halloc h.2
    refine ⟨hkeeps.version_le, fun hv => ?_, fun _ h => absurd h halloc⟩
    exact (nodeCount_congr (hkeeps.find?_eq hv)).ge
  case pos =>
    obtain ⟨rfl, hsome⟩ | hnone := halloc
    · obtain ⟨hnone, _⟩ | ⟨id, hid⟩ := s.take_allocate
      · exact absurd hnone hsome
      · have hcount := nodeCount_allocate hid
        have ⟨next, _, heq⟩ := allocate_eq_some hid
        have hversion : (s.take .allocate).version = s.version := by rw [heq, put_version]
        exact ⟨by rw [hversion], fun _ => by omega, fun _ _ => by omega⟩
    · exact hnone.elim

theorem through_cons : s.through (step :: steps) = (s.take step).through steps :=
  rfl

theorem through_coherent (hs : s.Coherent) (steps : List Step) : (s.through steps).Coherent := by
  induction steps generalizing s
  case nil => exact hs
  case cons step steps ih => exact ih (take_coherent hs)

theorem mem_observed_through {read : Key × Nat} (hs : s.Coherent) (h : read ∈ s.observed tx) :
    read ∈ (s.through steps).observed tx := by
  induction steps generalizing s
  case nil => exact h
  case cons step steps ih => exact ih (take_coherent hs) (mem_observed_take hs h)

theorem through_keeps (hs : s.Coherent) (h : ¬(key = .register .nodeIdCounter ∧ s.Allocates steps)) :
    Keeps key s (s.through steps) := by
  induction steps generalizing s
  case nil => exact .refl key s
  case cons step steps ih =>
    have hhead : Keeps key s (s.take step) := take_keeps hs fun ⟨hkey, halloc⟩ =>
      h ⟨hkey, halloc.imp_right False.elim⟩
    exact hhead.trans (ih (take_coherent hs) fun ⟨hkey, halloc⟩ => h ⟨hkey, .inr halloc⟩)

theorem through_counts (hs : s.Coherent) : Counts s (s.through steps) steps := by
  induction steps generalizing s
  case nil => exact ⟨le_rfl, fun _ => le_rfl, fun _ h => h.elim⟩
  case cons step steps ih =>
    have hhead : Counts s (s.take step) [step] := take_counts hs
    have htail : Counts (s.take step) ((s.take step).through steps) steps := ih (take_coherent hs)
    have hle := hhead.version_le
    have hle' := htail.version_le
    rw [← through_cons] at htail hle'
    refine ⟨hle.trans hle', fun hv => ?_, fun hv halloc => ?_⟩
    · exact (hhead.le (by omega)).trans (htail.le (by omega))
    · have hcount := hhead.le (by omega)
      have hcount' := htail.le (by omega)
      obtain ⟨rfl, hsome⟩ | halloc := halloc
      · exact (hhead.lt (by omega) (.inl ⟨rfl, hsome⟩)).trans_le hcount'
      · exact hcount.trans_lt (htail.lt (by omega) halloc)

theorem version_le_through (hs : s.Coherent) : s.version key ≤ (s.through steps).version key := by
  by_cases hkey : key = .register .nodeIdCounter
  case pos => exact hkey ▸ (through_counts hs).version_le
  case neg => exact (through_keeps hs fun h => hkey h.1).version_le

-- Whatever transaction a call is made for, and whatever was done before and in between: when a
-- commit is accepted, a row is as its transaction has read it under a lock, or still missing, unless
-- it is the counter of node ids and an id has been allocated since.
theorem read_kept_iff (earlier between : List Step)
    (hread : (new.through earlier).Reads tx call key value)
    (hok : ((new.through (earlier ++ .call call :: between)).commit tx changes).1 = .ok ()) :
    (new.through (earlier ++ .call call :: between)).rows.find? key = value ↔
      ¬(key = .register .nodeIdCounter ∧
        (new.through (earlier ++ [.call call])).Allocates between) := by
  have hstart : (new.through earlier).Coherent := through_coherent .new earlier
  have hcall : new.through (earlier ++ [.call call]) = ((new.through earlier).answer call).2 := by
    simp [through, take]
  have hend : new.through (earlier ++ .call call :: between) =
      (new.through (earlier ++ [.call call])).through between := by
    simp [through]
  have hafter : (new.through (earlier ++ [.call call])).Coherent := through_coherent .new _
  rw [hend] at hok ⊢
  have hcommit := (commit_eq_ok_iff (through_coherent hafter between)).mp hok
  -- The version that the transaction saw first has stayed up to the commit.
  have hversion : ((new.through (earlier ++ [.call call])).through between).version key =
      (new.through (earlier ++ [.call call])).version key := by
    rw [hcall] at hcommit hafter ⊢
    have ⟨v, hv, hobserved⟩ := hread.restsOn hstart
    have hsame := hcommit key v (mem_observed_through hafter hobserved)
    have hle := (hstart.answer call).1.version_le key
    have hle' : _ ≤ (((new.through earlier).answer call).2.through between).version key :=
      version_le_through hafter
    omega
  have hfetched : (new.through (earlier ++ [.call call])).rows.find? key = value := by
    rw [hcall, hread.rows_eq hstart]
    exact hread.find?_eq
  rw [← hfetched]
  constructor
  case mp =>
    rintro heq ⟨rfl, halloc⟩
    exact absurd (nodeCount_congr heq) ((through_counts hafter).lt hversion halloc).ne'
  case mpr => exact fun h => (through_keeps hafter h).find?_eq hversion

def directoryBelowRoot (id : UInt64) (name : String) : Row :=
  .node ⟨⟨id⟩, .root, name, .directory, []⟩

-- A directory is read, another one is inserted and an id allocated, and the commit is accepted.
theorem read_kept_directory :
    let earlier := [.call .begin, .insert (directoryBelowRoot 1 "a")]
    let call : Call := .find 1 .read (.node ⟨1⟩)
    let between := [.insert (directoryBelowRoot 2 "b"), .allocate]
    let finish := new.through (earlier ++ .call call :: between)
    (new.through earlier).Reads 1 call (.node ⟨1⟩) (some (directoryBelowRoot 1 "a")) ∧
      (finish.commit 1 []).1 = .ok () ∧
      finish.rows.find? (.node ⟨1⟩) = some (directoryBelowRoot 1 "a") := by
  have hread : (new.through [.call .begin, .insert (directoryBelowRoot 1 "a")]).Reads 1
      (.find 1 .read (.node ⟨1⟩)) (.node ⟨1⟩) (some (directoryBelowRoot 1 "a")) :=
    .find (by decide) (by decide)
  have hok : ((new.through ([.call .begin, .insert (directoryBelowRoot 1 "a")] ++
      .call (.find 1 .read (.node ⟨1⟩)) :: [.insert (directoryBelowRoot 2 "b"), .allocate])).commit
        1 []).1 = .ok () := by decide
  exact ⟨hread, hok, (read_kept_iff _ _ hread hok).mpr fun h => nomatch h.1⟩

-- The counter is read under a write lock, an id is allocated, and the commit is accepted.
theorem allocate_unnoticed :
    ¬∀ (earlier between : List Step) (tx : TxId) (call : Call) (key : Key) (value : Option Row)
      (changes : List Change), (new.through earlier).Reads tx call key value →
        ((new.through (earlier ++ .call call :: between)).commit tx changes).1 = .ok () →
        (new.through (earlier ++ .call call :: between)).rows.find? key = value := by
  intro h
  have hread : (new.through [.call .begin]).Reads 1 (.find 1 .write (.register .nodeIdCounter))
      (.register .nodeIdCounter) (some (.register ⟨.nodeIdCounter, 0⟩)) :=
    .find (by decide) (by decide)
  exact absurd (h [.call .begin] [.allocate] 1 _ _ _ [] hread (by decide)) (by decide)

end NamespaceService.Store
