import Mathlib.Data.List.Forall2
import NamespaceService.Proofs.Settings.Sections
import NamespaceService.Selector.Config
import NamespaceService.Transaction.Config

namespace NamespaceService

open Json Settings Section

section Options

variable {α : Type} {write : α → Json} {read? : Json → Option α}

theorem Settings.Format.optional?_ofOption (h : Rereads write read?)
    (hnull : ∀ a, (write a).isNull = false) (value : Option α) :
    json.optional? read? (.ofOption write value) = some value := by
  cases value
  case none => rfl
  case some a =>
    have hpresent : json.present? (write a) = some (some (write a)) := by simp [json, hnull a]
    simp [optional?, ofOption, hpresent, h.read?_write a]

theorem Json.Written.ofOption (h : Rereads write read?) (value : Option α) :
    Written (ofOption write value) := by
  cases value
  case none => exact .null
  case some a => exact h.written a

end Options

namespace TransactionConfig

variable {config config' : TransactionConfig} {field : String} {value : Json}

theorem isHeader_fields : IsHeader fields := by decide

theorem set_retryCount (n : UInt32) (config : TransactionConfig) :
    (set json "retry_count" (.ofNat n.toNat) config).1 = some { config with retryCount := n } :=
  congrArg (Option.map _) (word32?_ofNat n)

theorem set_rowLevelLock (b : Bool) (config : TransactionConfig) :
    (set json "row_level_lock" (.bool b) config).1 = some { config with rowLevelLock := b } :=
  rfl

theorem set_coarseLock (b : Bool) (config : TransactionConfig) :
    (set json "coarse_lock" (.bool b) config).1 = some { config with coarseLock := b } :=
  rfl

theorem set_serverId (id : Option UInt64) (config : TransactionConfig) :
    (set json "server_id" (.ofOption .ofWord64 id) config).1 = some { config with serverId := id } :=
  congrArg (Option.map _) (Format.optional?_ofOption rereads_word64 (fun _ => rfl) id)

-- A field that is set leaves the others as they are.
theorem set_frame (h : (set json field value config).1 = some config') :
    (field ≠ "retry_count" → config'.retryCount = config.retryCount) ∧
      (field ≠ "row_level_lock" → config'.rowLevelLock = config.rowLevelLock) ∧
      (field ≠ "coarse_lock" → config'.coarseLock = config.coarseLock) ∧
      (field ≠ "server_id" → config'.serverId = config.serverId) := by
  rw [set.eq_def] at h
  dsimp only at h
  split at h
  case h_5 => cases h
  all_goals
    obtain ⟨_, -, rfl⟩ := Option.map_eq_some_iff.mp h
    simp

-- The fields that are written.
def entries (config : TransactionConfig) : List (String × Json) :=
  [("retry_count", .ofNat config.retryCount.toNat),
    ("row_level_lock", .bool config.rowLevelLock),
    ("coarse_lock", .bool config.coarseLock),
    ("server_id", .ofOption .ofWord64 config.serverId)]

theorem hasDefaults (config : TransactionConfig) : HasDefaults (set json) config config.entries where
  initial hentry := by
    simp only [entries, List.mem_cons, List.not_mem_nil, or_false] at hentry
    obtain rfl | rfl | rfl | rfl := hentry
    all_goals simp only [set_retryCount, set_rowLevelLock, set_coarseLock, set_serverId]
  kept hentry hne hset hc := by
    obtain ⟨hretry, hrow, hcoarse, hserver⟩ := set_frame hset
    simp only [entries, List.mem_cons, List.not_mem_nil, or_false] at hentry
    obtain rfl | rfl | rfl | rfl := hentry
    all_goals
      simp only [set_retryCount, set_rowLevelLock, set_coarseLock, set_serverId, Option.some.injEq,
        TransactionConfig.ext_iff, true_and, and_true] at hc ⊢
    case inl => rw [hretry hne, hc]
    case inr.inl => rw [hrow hne, hc]
    case inr.inr.inl => rw [hcoarse hne, hc]
    case inr.inr.inr => rw [hserver hne, hc]

theorem written_toJson (config : TransactionConfig) : Written config.toJson := by
  refine .record isHeader_fields rfl ?_
  simp [Written.number, Written.bool, Written.ofOption rereads_word64]

theorem ofJson?_toJson (config : TransactionConfig) : ofJson? ⟨config.toJson, true⟩ = some config := by
  refine (Schema.ofJson?_entries schema fun _ hmem =>
    isHeader_fields.1 _ (List.mem_map_of_mem hmem)).trans ?_
  simp [readFrom_cons, readFrom_nil, schema, fields, set_retryCount, set_rowLevelLock,
    set_coarseLock, set_serverId]

end TransactionConfig

namespace Policy

variable {name name' : String} {policy : Policy}

theorem ofName_name (policy : Policy) : ofName policy.name = (policy, []) := by
  cases policy <;> decide

-- Characters that names of policies do not tell apart.
def Confused (c d : Char) : Prop :=
  c.toLower = d.toLower ∨ c ∈ ['-', '_'] ∧ d ∈ ['-', '_']

-- Two spellings of one name, in letters of either case, with words joined by `-` or by `_`.
def Alike (name name' : String) : Prop :=
  List.Forall₂ Confused name.toList name'.toList

theorem toLower_eq_iff {c d : Char} (hd : d = '-' ∨ d = '_') : c.toLower = d ↔ c = d := by
  delta Char.toLower
  split
  case isTrue hupper =>
    rw [Char.ext_iff, Char.ext_iff]
    obtain rfl | rfl := hd <;> grind
  case isFalse => rfl

theorem confused_iff {c d : Char} : Confused c d ↔
    (if c = '_' then '-' else c.toLower) = if d = '_' then '-' else d.toLower := by
  have hhyphen (c : Char) : c.toLower = '-' ↔ c = '-' := toLower_eq_iff (.inl rfl)
  have hscore (c : Char) : c.toLower = '_' ↔ c = '_' := toLower_eq_iff (.inr rfl)
  rw [Confused]
  split <;> split <;> grind

theorem normalize_eq_iff : normalize name = normalize name' ↔ Alike name name' := by
  rw [normalize, normalize, String.ofList_inj, ← List.forall₂_eq_eq_eq, List.forall₂_map_left_iff,
    List.forall₂_map_right_iff]
  simp only [← confused_iff, Alike]

theorem ofName?_eq_some_iff : ofName? name = some policy ↔ Alike name policy.name := by
  have hname : normalize policy.name = policy.name := by cases policy <;> decide
  rw [← normalize_eq_iff, hname, ofName?]
  split
  case h_1 heq => cases policy <;> simp [Policy.name, heq]
  case h_2 heq => cases policy <;> simp [Policy.name, heq]
  case h_3 hroundRobin hrandom =>
    cases policy
    case roundRobin => exact iff_of_false nofun hroundRobin
    case random => exact iff_of_false nofun hrandom

-- A name that no policy is spelled by stands for round-robin.
theorem ofName_eq_iff : (ofName name).1 = policy ↔
    Alike name policy.name ∨ policy = roundRobin ∧ ∀ other : Policy, ¬Alike name other.name := by
  simp only [← ofName?_eq_some_iff, ofName]
  cases ofName? name
  case none => simp [eq_comm]
  case some => simp

end Policy

namespace SelectorConfig

variable {config config' : SelectorConfig} {field : String} {value : Json}

theorem isHeader_fields : IsHeader fields := by decide

theorem set_refreshPeriod (n : UInt64) (config : SelectorConfig) :
    (set json "refresh_period_ms" (.ofWord64 n) config).1 = some { config with refreshPeriod := n } :=
  congrArg (Option.map _) (word64?_ofWord64 n)

theorem set_policy (name : String) (config : SelectorConfig) :
    (set json "policy" (.ofText name) config).1 =
      some { config with policy := (Policy.ofName name).1 } := by
  have htext : json.text? = Json.text? := rfl
  change (setPolicy (json.text? (.ofText name)) config).1 = _
  rw [htext, text?_ofText, setPolicy]

theorem set_primary (endpoint : Option String) (config : SelectorConfig) :
    (set json "primary" (.ofOption .ofText endpoint) config).1 =
      some { config with primary := endpoint } :=
  congrArg (Option.map _) (Format.optional?_ofOption rereads_text (fun _ => rfl) endpoint)

theorem set_candidates (endpoints : List String) (config : SelectorConfig) :
    (set json "candidates" (.ofList .ofText endpoints) config).1 =
      some { config with candidates := endpoints } := by
  have htexts : json.texts? (.ofList .ofText endpoints) = some endpoints := by
    have hread := rereads_text.list.read?_write endpoints
    rwa [listOf?] at hread
  exact congrArg (Option.map _) htexts

theorem set_randomSeed (seed : Option UInt64) (config : SelectorConfig) :
    (set json "random_seed" (.ofOption .ofWord64 seed) config).1 =
      some { config with randomSeed := seed } :=
  congrArg (Option.map _) (Format.optional?_ofOption rereads_word64 (fun _ => rfl) seed)

-- A field that is set leaves the others as they are.
theorem set_frame (h : (set json field value config).1 = some config') :
    (field ≠ "refresh_period_ms" → config'.refreshPeriod = config.refreshPeriod) ∧
      (field ≠ "policy" → config'.policy = config.policy) ∧
      (field ≠ "primary" → config'.primary = config.primary) ∧
      (field ≠ "candidates" → config'.candidates = config.candidates) ∧
      (field ≠ "random_seed" → config'.randomSeed = config.randomSeed) := by
  rw [set.eq_def] at h
  split at h
  case h_2 =>
    cases hname : json.text? value
    case none => cases hname ▸ h
    case some name =>
      rw [hname] at h
      cases h
      simp
  case h_6 => cases h
  all_goals
    obtain ⟨_, -, rfl⟩ := Option.map_eq_some_iff.mp h
    simp

-- The fields that are written.
def entries (config : SelectorConfig) : List (String × Json) :=
  [("refresh_period_ms", .ofWord64 config.refreshPeriod),
    ("policy", .ofText config.policy.name),
    ("primary", .ofOption .ofText config.primary),
    ("candidates", .ofList .ofText config.candidates),
    ("random_seed", .ofOption .ofWord64 config.randomSeed)]

theorem hasDefaults (config : SelectorConfig) : HasDefaults (set json) config config.entries where
  initial hentry := by
    simp only [entries, List.mem_cons, List.not_mem_nil, or_false] at hentry
    obtain rfl | rfl | rfl | rfl | rfl := hentry
    all_goals simp only [set_refreshPeriod, set_policy, set_primary, set_candidates, set_randomSeed,
      Policy.ofName_name]
  kept hentry hne hset hc := by
    obtain ⟨hperiod, hpolicy, hprimary, hcandidates, hseed⟩ := set_frame hset
    simp only [entries, List.mem_cons, List.not_mem_nil, or_false] at hentry
    obtain rfl | rfl | rfl | rfl | rfl := hentry
    all_goals
      simp only [set_refreshPeriod, set_policy, set_primary, set_candidates, set_randomSeed,
        Policy.ofName_name, Option.some.injEq, SelectorConfig.ext_iff, true_and, and_true] at hc ⊢
    case inl => rw [hperiod hne, hc]
    case inr.inl => rw [hpolicy hne, hc]
    case inr.inr.inl => rw [hprimary hne, hc]
    case inr.inr.inr.inl => rw [hcandidates hne, hc]
    case inr.inr.inr.inr => rw [hseed hne, hc]

theorem written_toJson (config : SelectorConfig) : Written config.toJson := by
  refine .record isHeader_fields rfl ?_
  simp [rereads_word64.written, Written.text, Written.ofOption rereads_text,
    rereads_text.list.written, Written.ofOption rereads_word64]

theorem ofJson?_toJson (config : SelectorConfig) :
    (ofJson? ⟨config.toJson, true⟩).1 = some config := by
  refine (Schema.ofJson?_entries schema fun _ hmem =>
    isHeader_fields.1 _ (List.mem_map_of_mem hmem)).trans ?_
  simp [readFrom_cons, readFrom_nil, schema, fields, set_refreshPeriod, set_policy,
    set_primary, set_candidates, set_randomSeed, Policy.ofName_name]

-- The policy under its own name, whatever it was called.
def namePolicy (value : Json) : Json :=
  match value.text? with
  | some name => .ofText (Policy.ofName name).1.name
  | none => value

theorem set_namePolicy (value : Json) (config : SelectorConfig) :
    (set json "policy" value config).1 = (set json "policy" (namePolicy value) config).1 := by
  rw [namePolicy]
  split
  case h_1 name hname =>
    rw [set_policy, Policy.ofName_name]
    exact congrArg (fun name => (setPolicy name config).1) hname
  case h_2 => rfl

theorem namePolicy_eq_iff {name : String} {policy : Policy} :
    namePolicy (.ofText name) = .ofText policy.name ↔ Policy.Alike name policy.name ∨
      policy = .roundRobin ∧ ∀ other : Policy, ¬Policy.Alike name other.name := by
  rw [← Policy.ofName_eq_iff, namePolicy, text?_ofText]
  constructor
  case mp =>
    intro h
    have hname := congrArg text? h
    rw [text?_ofText, text?_ofText, Option.some_inj] at hname
    simpa only [Policy.ofName_name] using congrArg (fun name => (Policy.ofName name).1) hname
  case mpr =>
    rintro rfl
    rfl

end SelectorConfig

end NamespaceService
