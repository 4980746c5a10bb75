import NamespaceService.Proofs.Json.Literals

namespace NamespaceService.Json

variable {json : Json} {items : List Json} {members : List (String × Json)} {cs rest : List Char}
  {fuel : Nat} {key : String}

-- Values whose literals were written, and not taken from a text.
inductive Written : Json → Prop
  | null : Written .null
  | bool (value : Bool) : Written (.bool value)
  | number (n : Nat) : Written (.ofNat n)
  | text (text : String) : Written (.ofText text)
  | array {items : List Json} : (∀ item ∈ items, Written item) → Written (.array items)
  | object {members : List (String × Json)} :
    (∀ member ∈ members, ∃ key, member.1 = writeLiteral key) →
    (∀ member ∈ members, Written member.2) → Written (.object members)

theorem toList_print_string (literal : String) :
    (print (.string literal)).toList = '"' :: (literal.toList ++ ['"']) := by
  simp [print]

theorem toList_print_array (items : List Json) :
    (print (.array items)).toList = '[' :: ((printItems items).toList ++ [']']) := by
  simp [print]

theorem toList_print_object (members : List (String × Json)) :
    (print (.object members)).toList = '\x7b' :: ((printMembers members).toList ++ ['\x7d']) := by
  simp [print]

theorem toList_printItems_cons (item next : Json) (items : List Json) :
    (printItems (item :: next :: items)).toList =
      item.print.toList ++ ',' :: (printItems (next :: items)).toList := by
  simp [printItems]

-- A member without what separates it from others.
def printMember (member : String × Json) : List Char :=
  '"' :: (member.1.toList ++ '"' :: ':' :: member.2.print.toList)

theorem toList_printMembers_singleton (member : String × Json) :
    (printMembers [member]).toList = printMember member := by
  simp [printMembers, printMember]

theorem toList_printMembers_cons (member next : String × Json) (members : List (String × Json)) :
    (printMembers (member :: next :: members)).toList =
      printMember member ++ ',' :: (printMembers (next :: members)).toList := by
  simp [printMembers, printMember]

theorem ne_of_isDigit {c d : Char} (hc : c.isDigit) (hd : d.isDigit = false) : c ≠ d := by
  rintro rfl
  simp [hd] at hc

theorem isBlank_digit {c : Char} (h : c.isDigit) : isBlank c = false := by
  simp [isBlank, ne_of_isDigit h (d := ' ') rfl, ne_of_isDigit h (d := '\n') rfl,
    ne_of_isDigit h (d := '\t') rfl, ne_of_isDigit h (d := '\r') rfl]

-- What a value can begin with: no blank, and no bracket that closes a list.
theorem Written.head (written : Written json) :
    ∃ c cs, json.print.toList = c :: cs ∧ isBlank c = false ∧ c ≠ ']' := by
  cases written
  case null => exact ⟨_, _, rfl, rfl, by decide⟩
  case bool value => cases value <;> exact ⟨_, _, rfl, rfl, by decide⟩
  case text text => exact ⟨_, _, toList_print_string _, rfl, by decide⟩
  case array items _ => exact ⟨_, _, toList_print_array items, rfl, by decide⟩
  case object members _ _ => exact ⟨_, _, toList_print_object members, rfl, by decide⟩
  case number n =>
    have hne : Nat.toDigits 10 n ≠ [] := Nat.toDigits_ne_nil
    have hdigit := isDigit_of_mem (List.head_mem hne)
    refine ⟨(Nat.toDigits 10 n).head hne, (Nat.toDigits 10 n).tail, ?_, ?_, ?_⟩
    · rw [ofNat, print, toList_toString, List.cons_head_tail]
    · exact isBlank_digit hdigit
    · exact ne_of_isDigit hdigit rfl

theorem skipBlank_cons {c : Char} (h : isBlank c = false) : skipBlank (c :: cs) = c :: cs :=
  List.dropWhile_cons_of_neg (by simp [h])

theorem readValue_string (fuel : Nat) (cs : List Char) : readValue (fuel + 1) ('"' :: cs) =
    (scanString cs).map fun (s, r) => (.string (String.ofList s), r) :=
  rfl

theorem readValue_array (fuel : Nat) (cs : List Char) : readValue (fuel + 1) ('[' :: cs) =
    (readItems fuel cs).2.map fun rest => (.array (readItems fuel cs).1, rest) := by
  rw [readValue, skipBlank_cons rfl]
  rcases hitems : readItems fuel cs with ⟨items, _ | rest⟩
  all_goals
    simp only [hitems]
    rfl

theorem readValue_object (fuel : Nat) (cs : List Char) : readValue (fuel + 1) ('\x7b' :: cs) =
    (readMembers fuel cs).2.map fun rest => (.object (readMembers fuel cs).1, rest) := by
  rw [readValue, skipBlank_cons rfl]
  rcases hmembers : readMembers fuel cs with ⟨members, _ | rest⟩
  all_goals
    simp only [hmembers]
    rfl

theorem readValue_digit {c : Char} (h : c.isDigit) (fuel : Nat) (cs : List Char) :
    readValue (fuel + 1) (c :: cs) =
      (scanNumber (c :: cs)).map fun (s, r) => (.number (String.ofList s), r) := by
  rw [readValue, skipBlank_cons (isBlank_digit h)]
  split
  case h_7 => rfl
  all_goals
    rename_i heq
    injection heq with hc
    exact absurd hc (ne_of_isDigit h rfl)

theorem readKey_printMember {member : String × Json} (h : ∃ key, member.1 = writeLiteral key)
    (cs : List Char) :
    readKey (printMember member ++ cs) = some (member.1, member.2.print.toList ++ cs) := by
  obtain ⟨key, hkey⟩ := h
  rw [readKey, printMember, List.cons_append, skipBlank_cons rfl]
  simp [hkey, writeLiteral, scanString_escape, skipBlank_cons (c := ':') rfl]

-- What follows a value within a text.
def Closes (rest : List Char) : Prop :=
  ∀ c ∈ rest.head?, c = ',' ∨ c = ']' ∨ c = '\x7d'

theorem Closes.endsNumber (h : Closes rest) : EndsNumber rest := by
  intro c hc
  obtain rfl | rfl | rfl := h c hc
  all_goals decide

theorem closes_cons {c : Char} (h : c = ',' ∨ c = ']' ∨ c = '\x7d') : Closes (c :: cs) := by
  rintro _ ⟨⟩
  exact h

-- Every nested value takes two units of fuel and at least one character.
def Reads (json : Json) : Prop :=
  ∀ fuel rest, Closes rest → 2 * json.print.toList.length ≤ fuel →
    readValue fuel (json.print.toList ++ rest) = some (json, rest)

theorem readMoreItems_print (hreads : ∀ item ∈ items, Reads item) (hne : items ≠ [])
    (hfuel : 2 * (printItems items).toList.length + 2 ≤ fuel) (rest : List Char) :
    readMoreItems fuel ((printItems items).toList ++ ']' :: rest) = (items, some rest) := by
  induction items generalizing fuel
  case nil => exact absurd rfl hne
  case cons item items ih =>
    have hitem := hreads item List.mem_cons_self
    obtain _ | fuel := fuel
    case zero => omega
    case succ =>
      cases items
      case nil =>
        rw [printItems] at hfuel ⊢
        rw [readMoreItems, hitem fuel _ (closes_cons (by simp)) (by omega)]
        simp only [skipBlank_cons (c := ']') rfl]
      case cons next items =>
        rw [toList_printItems_cons, List.length_append, List.length_cons] at hfuel
        have hmore : readMoreItems fuel ((printItems (next :: items)).toList ++ ']' :: rest) =
            (next :: items, some rest) :=
          ih (fun item hmem => hreads item (List.mem_cons_of_mem _ hmem)) (List.cons_ne_nil _ _)
            (by omega)
        rw [toList_printItems_cons, List.append_assoc, List.cons_append, readMoreItems,
          hitem fuel _ (closes_cons (by simp)) (by omega)]
        simp only [skipBlank_cons (c := ',') rfl, hmore]

theorem readMoreMembers_print (hkeys : ∀ member ∈ members, ∃ key, member.1 = writeLiteral key)
    (hreads : ∀ member ∈ members, Reads member.2) (hne : members ≠ [])
    (hfuel : 2 * (printMembers members).toList.length + 2 ≤ fuel) (rest : List Char) :
    readMoreMembers fuel ((printMembers members).toList ++ '\x7d' :: rest) = (members, some rest) := by
  induction members generalizing fuel
  case nil => exact absurd rfl hne
  case cons member members ih =>
    have hkey := hkeys member List.mem_cons_self
    have hvalue := hreads member List.mem_cons_self
    have hlength : member.2.print.toList.length ≤ (printMember member).length := by
      simp [printMember]; omega
    obtain _ | fuel := fuel
    case zero => omega
    case succ =>
      cases members
      case nil =>
        rw [toList_printMembers_singleton] at hfuel ⊢
        have hread := hvalue fuel ('\x7d' :: rest) (closes_cons (by simp)) (by omega)
        rw [readMoreMembers, readKey_printMember hkey]
        dsimp only
        rw [hread]
        simp only [skipBlank_cons (c := '\x7d') rfl]
      case cons next members =>
        rw [toList_printMembers_cons, List.length_append, List.length_cons] at hfuel
        have hmore :
            readMoreMembers fuel ((printMembers (next :: members)).toList ++ '\x7d' :: rest) =
              (next :: members, some rest) :=
          ih (fun _ hmem => hkeys _ (List.mem_cons_of_mem _ hmem))
            (fun _ hmem => hreads _ (List.mem_cons_of_mem _ hmem)) (List.cons_ne_nil _ _) (by omega)
        have hread := hvalue fuel (',' :: ((printMembers (next :: members)).toList ++ '\x7d' :: rest))
          (closes_cons (by simp)) (by omega)
        rw [toList_printMembers_cons, List.append_assoc, List.cons_append, readMoreMembers,
          readKey_printMember hkey]
        dsimp only
        rw [hread]
        simp only [skipBlank_cons (c := ',') rfl, hmore]

theorem readItems_print (written : ∀ item ∈ items, Written item)
    (hreads : ∀ item ∈ items, Reads item)
    (hfuel : 2 * (printItems items).toList.length + 3 ≤ fuel) (rest : List Char) :
    readItems fuel ((printItems items).toList ++ ']' :: rest) = (items, some rest) := by
  obtain _ | fuel := fuel
  case zero => omega
  case succ =>
    cases items
    case nil => rfl
    case cons item items =>
      have hmore := readMoreItems_print hreads (List.cons_ne_nil _ _) (Nat.le_of_succ_le_succ hfuel) rest
      obtain ⟨c, cs, hprint, hblank, hbracket⟩ := (written item List.mem_cons_self).head
      have hitems : ∃ cs, (printItems (item :: items)).toList = c :: cs := by
        cases items
        case nil => exact ⟨cs, hprint⟩
        case cons next items =>
          rw [toList_printItems_cons, hprint]
          exact ⟨_, rfl⟩
      obtain ⟨cs, hitems⟩ := hitems
      rw [hitems, List.cons_append] at hmore ⊢
      rw [readItems, skipBlank_cons hblank]
      split
      case h_1 heq => exact absurd (List.cons.inj heq).1 hbracket
      case h_2 => exact hmore

theorem readMembers_print (hkeys : ∀ member ∈ members, ∃ key, member.1 = writeLiteral key)
    (hreads : ∀ member ∈ members, Reads member.2)
    (hfuel : 2 * (printMembers members).toList.length + 3 ≤ fuel) (rest : List Char) :
    readMembers fuel ((printMembers members).toList ++ '\x7d' :: rest) = (members, some rest) := by
  obtain _ | fuel := fuel
  case zero => omega
  case succ =>
    cases members
    case nil => rfl
    case cons member members =>
      have hmore := readMoreMembers_print hkeys hreads (List.cons_ne_nil _ _)
        (Nat.le_of_succ_le_succ hfuel) rest
      have hmembers : ∃ cs, (printMembers (member :: members)).toList = '"' :: cs := by
        cases members
        case nil => exact ⟨_, toList_printMembers_singleton member⟩
        case cons next members =>
          rw [toList_printMembers_cons, printMember]
          exact ⟨_, rfl⟩
      obtain ⟨cs, hmembers⟩ := hmembers
      rw [hmembers, List.cons_append] at hmore ⊢
      rw [readMembers, skipBlank_cons rfl]
      exact hmore

theorem Written.reads (written : Written json) : Reads json := by
  induction written
  all_goals
    intro fuel rest hrest hfuel
    obtain _ | fuel := fuel
  case null.succ => rfl
  case bool.succ value => cases value <;> rfl
  case number.succ n =>
    obtain ⟨c, cs, hdigits⟩ := List.exists_cons_of_ne_nil (Nat.toDigits_ne_nil (n := n) (b := 10))
    have hdigit : c.isDigit := isDigit_of_mem (n := n) (by simp [hdigits])
    have hscan := scanNumber_toDigits hrest.endsNumber n
    rw [ofNat, print, toList_toString]
    rw [hdigits, List.cons_append] at hscan ⊢
    rw [readValue_digit hdigit, hscan, Option.map_some, ← hdigits, ← toList_toString]
    simp only [String.ofList_toList]
  case text.succ text =>
    rw [ofText, toList_print_string, List.cons_append, List.append_assoc, readValue_string,
      writeLiteral, String.toList_ofList, List.singleton_append, scanString_escape]
    rfl
  case array.succ items written ih =>
    rw [toList_print_array, List.length_cons, List.length_append, List.length_singleton] at hfuel
    rw [toList_print_array, List.cons_append, List.append_assoc, List.singleton_append]
    rw [readValue_array, readItems_print written ih (by omega) rest]
    rfl
  case object.succ members hkeys written ih =>
    rw [toList_print_object, List.length_cons, List.length_append, List.length_singleton] at hfuel
    rw [toList_print_object, List.cons_append, List.append_assoc, List.singleton_append]
    rw [readValue_object, readMembers_print hkeys ih (by omega) rest]
    rfl
  case null.zero => simp [print] at hfuel
  case bool.zero value => cases value <;> simp [print] at hfuel
  case number.zero n =>
    have := List.length_pos_iff.mpr (Nat.toDigits_ne_nil (n := n) (b := 10))
    rw [ofNat, print, toList_toString] at hfuel
    omega
  case text.zero text => simp [ofText, print] at hfuel
  case array.zero items _ _ => simp [print] at hfuel
  case object.zero members _ _ _ => simp [print] at hfuel

open Document in
theorem read_of_readValue {text : String}
    (h : ∀ fuel, fuelFor (skipBlank text.toList) ≤ fuel →
      readValue fuel (skipBlank text.toList) = some (json, [])) :
    Document.read text = ⟨json, true⟩ := by
  rw [Document.read]
  dsimp only
  split
  case h_1 cs heq =>
    rw [heq] at h
    have hread := h (fuelFor ('[' :: cs) + 1) (Nat.le_succ _)
    obtain ⟨rest, hrest, hvalue⟩ := Option.map_eq_some_iff.mp (readValue_array _ _ ▸ hread)
    cases hvalue
    rw [heq, hrest]
    rfl
  case h_2 cs heq =>
    rw [heq] at h
    have hread := h (fuelFor ('\x7b' :: cs) + 1) (Nat.le_succ _)
    obtain ⟨rest, hrest, hvalue⟩ := Option.map_eq_some_iff.mp (readValue_object _ _ ▸ hread)
    cases hvalue
    rw [heq, hrest]
    rfl
  case h_3 =>
    rw [h _ (Nat.le_refl _)]
    rfl

-- Values made of numbers, texts, truth values, lists and objects are read back.
theorem read_print (written : Written json) : Document.read json.print = ⟨json, true⟩ := by
  have hskip : skipBlank json.print.toList = json.print.toList := by
    obtain ⟨c, cs, hprint, hblank, -⟩ := written.head
    rw [hprint, skipBlank_cons hblank]
  refine read_of_readValue fun fuel hfuel => ?_
  rw [hskip, Document.fuelFor] at hfuel
  rw [hskip, ← written.reads fuel [] (by rintro _ ⟨⟩) (by omega), List.append_nil]

theorem parse?_print (written : Written json) : parse? json.print = some json := by
  rw [parse?, read_print written]
  rfl

end NamespaceService.Json
