import NamespaceService.Proofs.Json.Printing

namespace NamespaceService.Json

variable {α : Type} {write : α → Json} {read? : Json → Option α} {fields : List String}
  {values : List Json} {members : List (String × Json)} {name : String} {content : Json}

-- What is written of a value reads as the value, and can be read from a text.
structure Rereads (write : α → Json) (read? : Json → Option α) : Prop where
  written (a : α) : Written (write a)
  read?_write (a : α) : read? (write a) = some a

-- The name is written as it is.
abbrev IsPlain (name : String) : Prop :=
  writeLiteral name = name

theorem readLiteral?_of_isPlain (h : IsPlain name) : readLiteral? name = some name := by
  rw [← h, readLiteral?_writeLiteral, h]

-- The names of a record's fields: each is written as it is, and none is given twice.
abbrev IsHeader (fields : List String) : Prop :=
  (∀ field ∈ fields, IsPlain field) ∧ fields.Nodup

theorem Written.record (hheader : IsHeader fields) (hfields : members.map (·.1) = fields)
    (hvalues : ∀ member ∈ members, Written member.2) : Written (record members) :=
  .object (fun _ hmem => ⟨_, (hheader.1 _ (hfields ▸ List.mem_map_of_mem hmem)).symm⟩) hvalues

theorem lookup_of_mem {member : String × Json} (hheader : IsHeader (members.map (·.1)))
    (hmem : member ∈ members) : members.lookup member.1 = some member.2 := by
  obtain ⟨before, after, rfl⟩ := List.append_of_mem hmem
  refine List.lookup_eq_some_iff.mpr ⟨before, after, rfl, fun other hother => ?_⟩
  have hnodup := hheader.2
  rw [List.map_append, List.nodup_append] at hnodup
  have hne := hnodup.2.2 other.1 (List.mem_map_of_mem hother) member.1 (by simp)
  simpa [bne_iff_ne] using hne.symm

theorem mapM_of_forall {β γ : Type} {f : β → Option γ} {g : α → β} {h : α → γ} {l : List α}
    (hf : ∀ a ∈ l, f (g a) = some (h a)) : (l.map g).mapM f = some (l.map h) := by
  induction l
  case nil => rfl
  case cons a l ih =>
    have hrest := ih fun a hmem => hf a (List.mem_cons_of_mem _ hmem)
    simp [hf a List.mem_cons_self, hrest]

theorem members?_record (hheader : IsHeader (members.map (·.1))) :
    (record members).members? = some members := by
  have hread := mapM_of_forall (f := fun (member : String × Json) =>
    (readLiteral? member.1).map (·, member.2)) (g := id) (h := id) (l := members)
    fun member hmem => by
      simp [readLiteral?_of_isPlain (hheader.1 member.1 (List.mem_map_of_mem hmem))]
  rwa [List.map_id] at hread

theorem isUnambiguous_of_isHeader (hheader : IsHeader (members.map (·.1))) (fields : List String) :
    isUnambiguous fields members := by
  rw [isUnambiguous, List.all_eq_true]
  intro field _
  have hcount := List.nodup_iff_count.mp hheader.2 field
  rw [List.count_eq_countP, List.countP_map, List.countP_eq_length_filter] at hcount
  exact decide_eq_true hcount

theorem fields?_record (hheader : IsHeader fields) (hfields : members.map (·.1) = fields) :
    (record members).fields? fields = some (members.map (·.2)) := by
  subst hfields
  rw [fields?]
  · have hvalues := mapM_of_forall (f := (members.lookup ·)) (g := (·.1)) (h := (·.2)) (l := members)
      fun _ => lookup_of_mem hheader
    rw [members?_record hheader, Option.bind_eq_bind, Option.bind_some,
      if_pos (isUnambiguous_of_isHeader hheader _), hvalues]
  · simp [record]

theorem Rereads.record {members : α → List (String × Json)} {build : List Json → Option α}
    (hheader : IsHeader fields) (hfields : ∀ a, (members a).map (·.1) = fields)
    (hwritten : ∀ a, ∀ member ∈ members a, Written member.2)
    (hbuild : ∀ a, build ((members a).map (·.2)) = some a) :
    Rereads (fun a => .record (members a)) fun json => (json.fields? fields).bind build where
  written a := .record hheader (hfields a) (hwritten a)
  read?_write a := by rw [fields?_record hheader (hfields a), Option.bind_some, hbuild]

-- A list is read as the record of its items, if it has one item for each field.
def ReadsLists (fields : List String) (read? : Json → Option α) : Prop :=
  ∀ values, read? (array values) =
    if values.length = fields.length then read? (record (fields.zip values)) else none

theorem readsLists_of_fields? (hheader : IsHeader fields) (build : List Json → Option α) :
    ReadsLists fields fun json => (json.fields? fields).bind build := by
  intro values
  dsimp only
  split
  case isTrue hlength =>
    have hvalues : (fields.zip values).map (·.2) = values := List.map_snd_zip (Nat.le_of_eq hlength)
    rw [fields?_record hheader (List.map_fst_zip (Nat.le_of_eq hlength.symm)), hvalues, fields?,
      if_pos hlength]
  case isFalse hlength =>
    rw [fields?, if_neg hlength]
    rfl

theorem Written.variant (hplain : IsPlain name) (h : Written content) :
    Written (variant name content) :=
  .record ⟨List.forall_mem_singleton.mpr hplain, List.pairwise_singleton _ _⟩ rfl
    (List.forall_mem_singleton.mpr h)

theorem variant?_variant (hplain : IsPlain name) (content : Json) :
    (variant name content).variant? = some (name, some content) := by
  rw [variant, variant?, readLiteral?_of_isPlain hplain]
  rfl

theorem variant?_ofText (name : String) : (ofText name).variant? = some (name, none) := by
  rw [ofText, variant?, readLiteral?_writeLiteral]
  rfl

theorem word64?_ofWord64 (n : UInt64) : (ofWord64 n).word64? = some n := by
  simp [ofWord64, word64?, n.toNat_lt_size]

theorem word32?_ofNat (n : UInt32) : (ofNat n.toNat).word32? = some n := by
  simp [word32?, n.toNat_lt_size]

theorem word16?_ofNat (n : UInt16) : (ofNat n.toNat).word16? = some n := by
  simp [word16?, n.toNat_lt_size]

theorem rereads_word64 : Rereads ofWord64 word64? :=
  ⟨fun n => .number n.toNat, word64?_ofWord64⟩

theorem rereads_text : Rereads ofText text? :=
  ⟨.text, text?_ofText⟩

theorem Rereads.list (h : Rereads write read?) : Rereads (ofList write) (listOf? read?) where
  written items := by
    refine .array fun item hmem => ?_
    obtain ⟨a, -, rfl⟩ := List.mem_map.mp hmem
    exact h.written a
  read?_write items := by
    have := mapM_of_forall (l := items) (h := id) fun a _ => h.read?_write a
    rwa [List.map_id] at this

end NamespaceService.Json
