import NamespaceService.Proofs.Json.Records
import NamespaceService.Settings.Schema

namespace NamespaceService.Settings

open Json (IsHeader readLiteral?)

namespace Section

variable {V C : Type} {fields seen : List String} {set : Setter V C} {field : String} {value : V}
  {entries more : List (String × V)} {c c' : C}

theorem readFrom_nil (seen : List String) (c : C) : (readFrom fields set seen [] c).1 = some c :=
  rfl

theorem readFrom_cons (field : String) (value : V) (entries : List (String × V)) (c : C) :
    (readFrom fields set seen ((field, value) :: entries) c).1 =
      if field ∉ fields then (readFrom fields set seen entries c).1
      else if field ∈ seen then none
      else (set field value c).1.bind fun c => (readFrom fields set (field :: seen) entries c).1 := by
  rw [readFrom]
  split
  case isTrue => rfl
  case isFalse =>
    split
    case isTrue => rfl
    case isFalse => obtain ⟨_ | c, log⟩ := set field value c <;> rfl

-- Only known fields have to be remembered.
theorem readFrom_congr {seen' : List String} (h : ∀ field ∈ fields, field ∈ seen ↔ field ∈ seen') :
    (readFrom fields set seen entries c).1 = (readFrom fields set seen' entries c).1 := by
  induction entries generalizing seen seen' c
  case nil => rfl
  case cons entry entries ih =>
    obtain ⟨field, value⟩ := entry
    rw [readFrom_cons, readFrom_cons, ih h]
    by_cases hfield : field ∈ fields
    case neg => simp only [hfield, not_false_eq_true, if_true]
    case pos =>
      have hcons : ∀ other ∈ fields, other ∈ field :: seen ↔ other ∈ field :: seen' := by
        intro other hother
        rw [List.mem_cons, List.mem_cons, h other hother]
      simp only [h field hfield, ih hcons]

theorem readFrom_append : (readFrom fields set seen (entries ++ more) c).1 =
    (readFrom fields set seen entries c).1.bind fun c =>
      (readFrom fields set (entries.map (·.1) ++ seen) more c).1 := by
  induction entries generalizing seen c
  case nil => rfl
  case cons entry entries ih =>
    obtain ⟨field, value⟩ := entry
    rw [List.cons_append, readFrom_cons, readFrom_cons]
    split
    case isTrue hunknown =>
      rw [ih]
      refine congrArg _ (funext fun c => readFrom_congr fun other hother => ?_)
      have hne : other ≠ field := fun heq => hunknown (heq ▸ hother)
      simp [hne]
    case isFalse =>
      split
      case isTrue => rfl
      case isFalse =>
        rw [Option.bind_assoc]
        refine congrArg _ (funext fun c => ?_)
        rw [ih]
        refine congrArg _ (funext fun c => readFrom_congr fun other hother => ?_)
        simp [or_assoc, or_comm]

-- Another value of which the field makes the same.
theorem readFrom_replace {value' : V} (h : ∀ c, (set field value c).1 = (set field value' c).1) :
    (readFrom fields set seen (entries ++ (field, value) :: more) c).1 =
      (readFrom fields set seen (entries ++ (field, value') :: more) c).1 := by
  rw [readFrom_append, readFrom_append]
  refine congrArg _ (funext fun c => ?_)
  rw [readFrom_cons, readFrom_cons, h]

-- A field has its default for as long as it is not set.
structure HasDefaults (set : Setter V C) (initial : C) (defaults : List (String × V)) : Prop where
  initial {entry : String × V} : entry ∈ defaults → (set entry.1 entry.2 initial).1 = some initial
  kept {entry : String × V} {field : String} {value : V} {c c' : C} : entry ∈ defaults →
    field ≠ entry.1 → (set field value c).1 = some c' → (set entry.1 entry.2 c).1 = some c →
    (set entry.1 entry.2 c').1 = some c'

variable {initial : C} {defaults : List (String × V)} {entry : String × V}

theorem HasDefaults.readFrom (h : HasDefaults set initial defaults) (hentry : entry ∈ defaults)
    (hunset : entry.1 ∉ entries.map (·.1)) (hc : (set entry.1 entry.2 c).1 = some c)
    (hread : (readFrom fields set seen entries c).1 = some c') :
    (set entry.1 entry.2 c').1 = some c' := by
  induction entries generalizing seen c
  case nil =>
    cases hread
    exact hc
  case cons first entries ih =>
    obtain ⟨field, value⟩ := first
    rw [List.map_cons, List.mem_cons, not_or] at hunset
    rw [readFrom_cons] at hread
    split at hread
    case isTrue => exact ih hunset.2 hc hread
    case isFalse =>
      split at hread
      case isTrue => cases hread
      case isFalse =>
        obtain ⟨next, hset, hread⟩ := Option.bind_eq_some_iff.mp hread
        exact ih hunset.2 (h.kept hentry (Ne.symm hunset.1) hset hc) hread

theorem readFrom_of_unchanged (hnodup : (entries.map (·.1)).Nodup)
    (hseen : ∀ entry ∈ entries, entry.1 ∉ seen)
    (h : ∀ entry ∈ entries, (set entry.1 entry.2 c).1 = some c) :
    (readFrom fields set seen entries c).1 = some c := by
  induction entries generalizing seen
  case nil => rfl
  case cons entry entries ih =>
    obtain ⟨field, value⟩ := entry
    have ⟨hfield, hnodup⟩ := List.nodup_cons.mp hnodup
    have hrest := fun entry hmem => h entry (List.mem_cons_of_mem _ hmem)
    rw [readFrom_cons]
    split
    case isTrue => exact ih hnodup (fun entry hmem => hseen entry (List.mem_cons_of_mem _ hmem)) hrest
    case isFalse =>
      rw [if_neg (hseen _ List.mem_cons_self), h _ List.mem_cons_self, Option.bind_some]
      refine ih hnodup (fun entry hmem => ?_) hrest
      rw [List.mem_cons, not_or]
      exact ⟨fun heq => hfield (List.mem_map.mpr ⟨entry, hmem, heq⟩),
        hseen entry (List.mem_cons_of_mem _ hmem)⟩

theorem readFrom_filled (h : HasDefaults set initial defaults)
    (hnodup : (defaults.map (·.1)).Nodup) :
    (readFrom fields set [] (entries ++ defaults.filter (·.1 ∉ entries.map (·.1))) initial).1 =
      (readFrom fields set [] entries initial).1 := by
  have hunset {entry} (hmem : entry ∈ defaults.filter (·.1 ∉ entries.map (·.1))) :
      entry ∈ defaults ∧ entry.1 ∉ entries.map (·.1) := by
    simpa only [List.mem_filter, decide_eq_true_eq] using hmem
  rw [readFrom_append]
  cases hread : (readFrom fields set [] entries initial).1
  case none => rfl
  case some c =>
    refine readFrom_of_unchanged ?_ (fun entry hmem => ?_) fun entry hmem => ?_
    · exact hnodup.sublist (List.filter_sublist.map _)
    · rw [List.append_nil]
      exact (hunset hmem).2
    · exact h.readFrom (hunset hmem).1 (hunset hmem).2 (h.initial (hunset hmem).1) hread

variable {members added : List (String × Json)}

theorem length_readableKeys_le (members : List (String × Json)) :
    (readableKeys members).length ≤ members.length := by
  induction members
  case nil => exact Nat.le_refl 0
  case cons member members ih =>
    rw [readableKeys]
    split
    case h_1 => exact Nat.succ_le_succ ih
    case h_2 => exact Nat.zero_le _

theorem readableKeys_append (members added : List (String × Json)) :
    readableKeys (members ++ added) =
      if (readableKeys members).length = members.length then
        readableKeys members ++ readableKeys added
      else readableKeys members := by
  induction members
  case nil => rfl
  case cons member members ih =>
    obtain ⟨key, value⟩ := member
    rw [List.cons_append, readableKeys, readableKeys]
    cases readLiteral? key
    case none => simp
    case some key =>
      simp only [ih, List.length_cons, Nat.add_right_cancel_iff]
      split <;> rfl

theorem readableKeys_of_isPlain (h : ∀ member ∈ members, Json.IsPlain member.1) :
    readableKeys members = members := by
  induction members
  case nil => rfl
  case cons member members ih =>
    obtain ⟨key, value⟩ := member
    rw [readableKeys, Json.readLiteral?_of_isPlain (h _ List.mem_cons_self),
      ih fun member hmem => h member (List.mem_cons_of_mem _ hmem)]

end Section

namespace Schema

open Section

variable {C : Type} {schema : Schema C} {defaults members : List (String × Json)} {complete : Bool}

theorem ofJson?_object (schema : Schema C) (members : List (String × Json)) (complete : Bool) :
    (schema.ofJson? ⟨.object members, complete⟩).1 =
      if complete && (readableKeys members).length = members.length then
        (readFrom schema.fields (schema.set json) [] (readableKeys members) schema.defaults).1
      else none :=
  rfl

theorem ofJson?_entries (schema : Schema C) {entries : List (String × Json)}
    (hplain : ∀ entry ∈ entries, Json.IsPlain entry.1) :
    (schema.ofJson? ⟨.object entries, true⟩).1 =
      (readFrom schema.fields (schema.set json) [] entries schema.defaults).1 := by
  simp [ofJson?_object, readableKeys_of_isPlain hplain]

-- The defaults of the fields that are not written.
def missing (defaults members : List (String × Json)) : List (String × Json) :=
  defaults.filter (·.1 ∉ (readableKeys members).map (·.1))

theorem ofJson?_filled (h : HasDefaults (schema.set json) schema.defaults defaults)
    (hheader : IsHeader schema.fields) (hfields : defaults.map (·.1) = schema.fields) :
    (schema.ofJson? ⟨.object (members ++ missing defaults members), complete⟩).1 =
      (schema.ofJson? ⟨.object members, complete⟩).1 := by
  have hmissing : readableKeys (missing defaults members) = missing defaults members :=
    readableKeys_of_isPlain fun member hmem =>
      hheader.1 _ (hfields ▸ List.mem_map_of_mem (List.filter_sublist.mem hmem))
  rw [ofJson?_object, ofJson?_object, readableKeys_append, hmissing]
  by_cases hwhole : (readableKeys members).length = members.length
  case pos =>
    have hfilled : (readFrom schema.fields (schema.set json) []
        (readableKeys members ++ missing defaults members) schema.defaults).1 =
          (readFrom schema.fields (schema.set json) [] (readableKeys members) schema.defaults).1 :=
      readFrom_filled h (hfields ▸ hheader.2)
    rw [if_pos hwhole]
    simp only [List.length_append, hwhole, hfilled]
  case neg =>
    have hle := length_readableKeys_le members
    rw [if_neg hwhole, List.length_append]
    have hlonger : (readableKeys members).length ≠
        members.length + (missing defaults members).length := by omega
    simp only [hwhole, hlonger, decide_false, Bool.and_false]

theorem ofJson?_array (hheader : IsHeader schema.fields) (items : List Json) (complete : Bool) :
    (schema.ofJson? ⟨.array items, complete⟩).1 =
      if items.length ≤ schema.fields.length then
        (schema.ofJson? ⟨.record (schema.fields.zip items), complete⟩).1
      else none := by
  have hkeys : readableKeys (schema.fields.zip items) = schema.fields.zip items :=
    readableKeys_of_isPlain fun member hmem => hheader.1 _ (List.of_mem_zip hmem).1
  have hlist : (schema.ofJson? ⟨.array items, complete⟩).1 =
      if complete && items.length ≤ schema.fields.length then
        (readFrom schema.fields (schema.set json) [] (schema.fields.zip items) schema.defaults).1
      else none := rfl
  rw [hlist, Json.record, ofJson?_object, hkeys]
  by_cases hlength : items.length ≤ schema.fields.length
  case pos => simp only [hlength, decide_true, Bool.and_true, if_true]
  case neg => simp only [hlength, decide_false, Bool.and_false, Bool.false_eq_true, if_false]

theorem ofJson?_replace {field : String} {value value' : Json} (hplain : Json.IsPlain field)
    (h : ∀ c, (schema.set json field value c).1 = (schema.set json field value' c).1)
    (front back : List (String × Json)) (complete : Bool) :
    (schema.ofJson? ⟨.object (front ++ (field, value) :: back), complete⟩).1 =
      (schema.ofJson? ⟨.object (front ++ (field, value') :: back), complete⟩).1 := by
  have hkey := Json.readLiteral?_of_isPlain hplain
  rw [ofJson?_object, ofJson?_object, readableKeys_append, readableKeys_append]
  simp only [readableKeys, hkey, List.length_append, List.length_cons]
  split
  case isTrue =>
    rw [readFrom_replace h]
    simp only [List.length_append, List.length_cons]
  case isFalse => rfl

end Schema

end NamespaceService.Settings
