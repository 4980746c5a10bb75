import NamespaceService.Proofs.Text.Digits
import NamespaceService.Selector.Address

namespace NamespaceService.Ip

variable {radix n : Nat} {cs rest : List Char} {digits : List Nat}

theorem digit?_digitChar {d : Nat} (hd : d < radix) (hradix : radix ≤ 16) :
    digit? radix d.digitChar = some d := by
  have hall : ∀ radix ≤ 16, ∀ d < radix, digit? radix d.digitChar = some d := by decide
  exact hall radix hradix d hd

theorem exists_digits (hbase : 1 < radix) (n : Nat) : ∃ digits : List Nat,
    Nat.toDigits radix n = digits.map Nat.digitChar ∧ (∀ d ∈ digits, d < radix) ∧
      numberOf radix digits = n := by
  induction n using Nat.base_induction radix hbase
  case single m hm =>
    exact ⟨[m], Nat.toDigits_of_lt_base hm, by simp [hm], by simp [numberOf]⟩
  case digit m k hk hm ih =>
    obtain ⟨digits, htext, hlt, hvalue⟩ := ih
    refine ⟨digits ++ [k], ?_, ?_, ?_⟩
    · rw [← Nat.toDigits_append_toDigits hbase hm hk, htext, Nat.toDigits_of_lt_base hk]
      simp
    · intro d hmem
      obtain hmem | rfl := by simpa using hmem
      · exact hlt d hmem
      · exact hk
    · rw [numberOf, List.foldl_append, ← numberOf, hvalue]
      simp [Nat.mul_comm]

-- What cannot go on with a number.
def Ends (radix : Nat) (rest : List Char) : Prop :=
  ∀ c ∈ rest.head?, digit? radix c = none

theorem ends_cons {c : Char} (h : digit? radix c = none) : Ends radix (c :: cs) := by
  rintro _ ⟨⟩
  exact h

theorem ends_nil : Ends radix [] := by
  rintro _ ⟨⟩

theorem scanDigits_map (hlt : ∀ d ∈ digits, d < radix) (hradix : radix ≤ 16)
    (hrest : Ends radix rest) :
    scanDigits radix (digits.map Nat.digitChar ++ rest) = (digits, rest) := by
  induction digits
  case nil =>
    cases rest
    case nil => rfl
    case cons c rest => simp [scanDigits, hrest c rfl]
  case cons d digits ih =>
    have hdigit := digit?_digitChar (hlt d List.mem_cons_self) hradix
    have hmore := ih fun d hmem => hlt d (List.mem_cons_of_mem _ hmem)
    simp [scanDigits, hdigit, hmore]

-- A number below a power of the base has at most so many digits, and no zero in front.
theorem scanDigits_toDigits (hbase : 1 < radix) (hradix : radix ≤ 16) (hrest : Ends radix rest)
    (n : Nat) : ∃ digits, scanDigits radix (Nat.toDigits radix n ++ rest) = (digits, rest) ∧
      digits.length = (Nat.toDigits radix n).length ∧ digits ≠ [] ∧
      (∀ d ds, digits ≠ 0 :: d :: ds) ∧ numberOf radix digits = n := by
  obtain ⟨digits, htext, hlt, hvalue⟩ := exists_digits hbase n
  refine ⟨digits, ?_, ?_, ?_, ?_, hvalue⟩
  · rw [htext, scanDigits_map hlt hradix hrest]
  · rw [htext, List.length_map]
  · rintro rfl
    exact Nat.toDigits_ne_nil htext
  · rintro d ds rfl
    exact Text.toDigits_ne_zero_cons hbase htext

theorem scanOctet_toDigits (n : UInt8) (hrest : Ends 10 rest) :
    scanOctet (Nat.toDigits 10 n.toNat ++ rest) = some (n, rest) := by
  obtain ⟨digits, hscan, hlength, hne, hzero, hvalue⟩ :=
    scanDigits_toDigits (by decide) (by decide) hrest n.toNat
  have hlt := n.toNat_lt
  have hshort : digits.length ≤ 3 := by
    rw [hlength, Nat.length_toDigits_le_iff (by decide) (by decide)]
    omega
  rw [scanOctet, hscan]
  split
  case h_1 heq => exact absurd (Prod.ext_iff.mp heq).1 hne
  case h_2 heq => exact absurd (Prod.ext_iff.mp heq).1 (hzero _ _)
  case h_3 heq =>
    cases heq
    rw [if_pos ⟨hshort, by omega⟩, hvalue]
    simp

theorem scanGroup_toDigits (n : UInt16) (hrest : Ends 16 rest) :
    scanGroup (Nat.toDigits 16 n.toNat ++ rest) = some (n, rest) := by
  obtain ⟨digits, hscan, hlength, hne, -, hvalue⟩ :=
    scanDigits_toDigits (by decide) (by decide) hrest n.toNat
  have hlt := n.toNat_lt
  have hshort : digits.length ≤ 4 := by
    rw [hlength, Nat.length_toDigits_le_iff (by decide) (by decide)]
    omega
  rw [scanGroup, hscan]
  split
  case h_1 heq => exact absurd (Prod.ext_iff.mp heq).1 hne
  case h_2 heq =>
    cases heq
    rw [if_pos hshort, hvalue]
    simp

def v4Chars (a b c d : UInt8) : List Char :=
  Nat.toDigits 10 a.toNat ++ '.' :: (Nat.toDigits 10 b.toNat ++ '.' ::
    (Nat.toDigits 10 c.toNat ++ '.' :: Nat.toDigits 10 d.toNat))

theorem toList_v4Text (a b c d : UInt8) : (v4Text a b c d).toList = v4Chars a b c d := by
  have htext (n : UInt8) : (toString n).toList = Nat.toDigits 10 n.toNat := Nat.toList_repr
  have hdot : (toString ".").toList = ['.'] := rfl
  simp [v4Text, v4Chars, htext, hdot]

theorem scanV4_v4Chars (a b c d : UInt8) :
    scanV4 (v4Chars a b c d) = some ((a, b, c, d), []) := by
  have hd := scanOctet_toDigits d ends_nil
  rw [List.append_nil] at hd
  simp [scanV4, v4Chars, scanOctet_toDigits _ (ends_cons (c := '.') rfl), scanMark, hd]

theorem scanDigits_suffix (radix : Nat) (cs : List Char) : (scanDigits radix cs).2 <:+ cs := by
  induction cs
  case nil => exact List.suffix_refl _
  case cons c cs ih =>
    rw [scanDigits]
    split
    case h_1 => exact ih.trans (List.suffix_cons c cs)
    case h_2 => exact List.suffix_refl _

theorem scanMark_eq_none {mark : Char} (h : mark ∉ cs) : scanMark mark cs = none := by
  cases cs
  case nil => rfl
  case cons c cs => exact if_neg (Ne.symm (List.ne_of_not_mem_cons h))

-- Version 4 addresses have points.
theorem scanV4_eq_none (h : '.' ∉ cs) : scanV4 cs = none := by
  rw [scanV4]
  cases hoctet : scanOctet cs
  case none => rfl
  case some octet =>
    have hsuffix : octet.2 <:+ cs := by
      have hdigits := scanDigits_suffix 10 cs
      rw [scanOctet] at hoctet
      split at hoctet
      case h_3 heq =>
        rw [heq] at hdigits
        split at hoctet
        case isTrue => exact Option.some.inj hoctet ▸ hdigits
        case isFalse => cases hoctet
      all_goals cases hoctet
    have hmark : scanMark '.' octet.2 = none := scanMark_eq_none fun hmem => h (hsuffix.mem hmem)
    simp [hmark]

theorem scanV4_of_not_digit {c : Char} (h : digit? 10 c = none) : scanV4 (c :: cs) = none := by
  simp [scanV4, scanOctet, scanDigits, h]

def tailChars (groups : List UInt16) : List Char :=
  groups.flatMap fun group => ':' :: Nat.toDigits 16 group.toNat

def groupChars : List UInt16 → List Char
  | [] => []
  | group :: groups => Nat.toDigits 16 group.toNat ++ tailChars groups

theorem toList_groupsText (groups : List UInt16) :
    (groupsText groups).toList = groupChars groups := by
  induction groups
  case nil => rfl
  case cons group groups ih =>
    cases groups
    case nil => simp [groupsText, hexText, groupChars, tailChars]
    case cons next groups =>
      rw [groupsText, List.map_cons, List.map_cons, String.intercalate_cons_cons, ← List.map_cons,
        String.toList_append, String.toList_append, ← groupsText, ih]
      simp [hexText, groupChars, tailChars]

theorem not_mem_toDigits (n : Nat) : '.' ∉ Nat.toDigits 16 n := by
  obtain ⟨digits, htext, hlt, -⟩ := exists_digits (by decide : 1 < 16) n
  rw [htext]
  intro hmem
  obtain ⟨d, hd, heq⟩ := List.mem_map.mp hmem
  have hall : ∀ d < 16, Nat.digitChar d ≠ '.' := by decide
  exact hall d (hlt d hd) heq

theorem not_mem_tailChars (groups : List UInt16) : '.' ∉ tailChars groups := by
  simp [tailChars, not_mem_toDigits]

theorem not_mem_groupChars (groups : List UInt16) : '.' ∉ groupChars groups := by
  cases groups <;> simp [groupChars, not_mem_toDigits, not_mem_tailChars]

-- What stands behind groups: nothing, or two colons.
def Stops (rest : List Char) : Prop :=
  rest = [] ∨ ∃ cs, rest = ':' :: ':' :: cs

variable {limit : Nat} {isFirst : Bool} {groups : List UInt16} {group : UInt16}

theorem Stops.ends (h : Stops rest) (groups : List UInt16) : Ends 16 (tailChars groups ++ rest) := by
  cases groups
  case nil =>
    obtain rfl | ⟨cs, rfl⟩ := h
    · exact ends_nil
    · exact ends_cons rfl
  case cons group groups => exact ends_cons rfl

theorem scanV4_scanColon (hdot : '.' ∉ cs) (isFirst : Bool) :
    (scanColon isFirst cs).bind scanV4 = none := by
  cases isFirst
  case true => exact scanV4_eq_none hdot
  case false =>
    cases cs
    case nil => rfl
    case cons c cs =>
      rw [scanColon, if_neg Bool.false_ne_true, scanMark]
      split
      case isTrue => exact scanV4_eq_none fun hmem => hdot (List.mem_cons_of_mem c hmem)
      case isFalse => rfl

theorem scanGroups_stops (hstops : Stops rest) (hdot : '.' ∉ rest) (limit : Nat) (isFirst : Bool) :
    scanGroups limit isFirst rest = (([], false), rest) := by
  have hgroup : (scanColon isFirst rest).bind scanGroup = none := by
    obtain rfl | ⟨cs, rfl⟩ := hstops
    all_goals cases isFirst <;> rfl
  cases limit
  case zero => rfl
  case succ limit =>
    simp only [scanGroups, scanV4_scanColon hdot, ite_self, hgroup]

theorem scanGroups_cons {last : List Char}
    (hcolon : scanColon isFirst cs = some (Nat.toDigits 16 group.toNat ++ rest)) (hdot : '.' ∉ cs)
    (hends : Ends 16 rest) (hmore : scanGroups limit false rest = ((groups, false), last)) :
    scanGroups (limit + 1) isFirst cs = ((group :: groups, false), last) := by
  have hgroup : (scanColon isFirst cs).bind scanGroup = some (group, rest) := by
    rw [hcolon, Option.bind_some, scanGroup_toDigits group hends]
  simp only [scanGroups, scanV4_scanColon hdot, ite_self, hgroup, hmore]

theorem scanGroups_tailChars (hstops : Stops rest) (hdot : '.' ∉ rest)
    (hle : groups.length ≤ limit) :
    scanGroups limit false (tailChars groups ++ rest) = ((groups, false), rest) := by
  induction groups generalizing limit
  case nil => exact scanGroups_stops hstops hdot limit false
  case cons group groups ih =>
    obtain _ | limit := limit
    case zero => cases hle
    case succ =>
      refine scanGroups_cons ?_ ?_ (hstops.ends groups)
        (ih (Nat.le_of_succ_le_succ hle))
      · rw [← List.append_assoc]
        rfl
      · simp [not_mem_tailChars, hdot]

theorem scanGroups_groupChars (hstops : Stops rest) (hdot : '.' ∉ rest)
    (hle : groups.length ≤ limit) :
    scanGroups limit true (groupChars groups ++ rest) = ((groups, false), rest) := by
  cases groups
  case nil => exact scanGroups_stops hstops hdot limit true
  case cons group groups =>
    obtain _ | limit := limit
    case zero => cases hle
    case succ =>
      refine scanGroups_cons ?_ ?_ (hstops.ends groups)
        (scanGroups_tailChars hstops hdot (Nat.le_of_succ_le_succ hle))
      · rw [← List.append_assoc]
        rfl
      · simp [not_mem_groupChars, hdot]

theorem scanGroups_whole (hle : groups.length ≤ limit) :
    scanGroups limit true (groupChars groups) = ((groups, false), []) := by
  rw [← List.append_nil (groupChars groups)]
  exact scanGroups_groupChars (.inl rfl) List.not_mem_nil hle

theorem take_of_le_zerosAt (h : n ≤ zerosAt groups) : groups.take n = List.replicate n 0 := by
  induction groups generalizing n
  case nil =>
    rw [Nat.le_zero.mp h]
    rfl
  case cons group groups ih =>
    obtain _ | n := n
    case zero => rfl
    case succ =>
      rw [zerosAt, List.takeWhile_cons] at h
      split at h
      case isTrue hzero =>
        rw [List.take_succ_cons, ih (Nat.le_of_succ_le_succ h), List.replicate_succ,
          of_decide_eq_true hzero]
      case isFalse => cases h

-- The zeros that are left out are there.
theorem longestZeros_le (groups : List UInt16) :
    (longestZeros groups).2 ≤ zerosAt (groups.drop (longestZeros groups).1) := by
  refine List.foldlRecOn (motive := fun best : Nat × Nat => best.2 ≤ zerosAt (groups.drop best.1)) _ _
    (Nat.zero_le _) fun best hbest start _ => ?_
  dsimp only
  split
  case isTrue => exact Nat.le_refl _
  case isFalse => exact hbest

variable {start length : Nat}

theorem put_back (h : length ≤ zerosAt (groups.drop start)) :
    groups.take start ++ (List.replicate length 0 ++ groups.drop (start + length)) = groups := by
  rw [← take_of_le_zerosAt h, ← List.drop_drop, List.take_append_drop, List.take_append_drop]

variable {ip : Ip}

theorem length_of_ofGroups? (h : ofGroups? groups = some ip) : groups.length = 8 := by
  rw [ofGroups?.eq_def] at h
  split at h
  case h_1 => rfl
  case h_2 => cases h

theorem scanV6_whole (h : ofGroups? groups = some ip) :
    scanV6 (groupChars groups) = some (ip, []) := by
  have hlength := length_of_ofGroups? h
  rw [scanV6, scanGroups_whole (Nat.le_of_eq hlength)]
  simp [hlength, h]

theorem scanV6_elided {front back : List UInt16} (hpos : 0 < length)
    (h : ofGroups? (front ++ (List.replicate length 0 ++ back)) = some ip) :
    scanV6 (groupChars front ++ ':' :: ':' :: groupChars back) = some (ip, []) := by
  have hlength : front.length + (length + back.length) = 8 := by
    simpa using length_of_ofGroups? h
  have hfront : scanGroups 8 true (groupChars front ++ ':' :: ':' :: groupChars back) =
      ((front, false), ':' :: ':' :: groupChars back) :=
    scanGroups_groupChars (.inr ⟨_, rfl⟩) (by simp [not_mem_groupChars]) (by omega)
  have hback : scanGroups (7 - front.length) true (groupChars back) = ((back, false), []) :=
    scanGroups_whole (by omega)
  have hcount : 8 - front.length - back.length = length := by omega
  have hshort : front.length ≠ 8 := by omega
  rw [scanV6, hfront]
  simp [scanMark, hback, hcount, hshort, h]

theorem scanV6_v6Text (h : ofGroups? groups = some ip) :
    scanV6 (v6Text groups).toList = some (ip, []) := by
  have hzeros := longestZeros_le groups
  rw [v6Text]
  dsimp only
  split
  case isTrue hlong =>
    rw [String.toList_append, String.toList_append, toList_groupsText, toList_groupsText,
      List.append_assoc]
    refine scanV6_elided (Nat.lt_trans Nat.zero_lt_one hlong) ?_
    rw [put_back hzeros, h]
  case isFalse => rw [toList_groupsText, scanV6_whole h]

theorem not_mem_v6Text (groups : List UInt16) : '.' ∉ (v6Text groups).toList := by
  rw [v6Text]
  dsimp only
  split <;> simp [toList_groupsText, not_mem_groupChars]

theorem joinBytes_bytes (n : UInt16) : joinBytes (highByte n) (lowByte n) = n := by
  have hn := n.toNat_lt
  have hsum : (n.toNat / 256) <<< 8 + n.toNat % 256 = n.toNat := by
    rw [Nat.shiftLeft_eq]
    omega
  have hor := Nat.shiftLeft_add_eq_or_of_lt (Nat.mod_lt n.toNat (by decide : 2 ^ 8 > 0)) (n.toNat / 256)
  have hhigh : n.toNat / 256 % 256 = n.toNat / 256 := by omega
  have hshift : (n.toNat / 256) <<< 8 % 65536 = (n.toNat / 256) <<< 8 := by
    rw [Nat.shiftLeft_eq]
    omega
  apply UInt16.toNat_inj.mp
  rw [joinBytes, highByte, lowByte]
  simp [Nat.shiftRight_eq_div_pow, hhigh, hshift, ← hor, hsum]

-- The last two groups are written as a version 4 address.
theorem scanGroups_mapped (g h : UInt16) :
    scanGroups 7 true (Nat.toDigits 16 0xffff ++
      ':' :: v4Chars (highByte g) (lowByte g) (highByte h) (lowByte h)) =
        (([0xffff, g, h], true), []) := by
  have hv4 := scanV4_v4Chars (highByte g) (lowByte g) (highByte h) (lowByte h)
  generalize v4Chars (highByte g) (lowByte g) (highByte h) (lowByte h) = cs at hv4
  have hgroup : scanGroup (Nat.toDigits 16 0xffff ++ ':' :: cs) = some (0xffff, ':' :: cs) :=
    scanGroup_toDigits 0xffff (ends_cons rfl)
  have hnoV4 : scanV4 (Nat.toDigits 16 0xffff ++ ':' :: cs) = none := scanV4_of_not_digit rfl
  have hlast : scanGroups 6 false (':' :: cs) = (([g, h], true), []) := by
    simp [scanGroups, scanColon, scanMark, hv4, joinBytes_bytes]
  rw [scanGroups]
  simp only [scanColon, if_true, Option.bind_some, hnoV4, ite_self, hgroup, hlast]

theorem scan_mapped (g h : UInt16) :
    scan ("::ffff:" ++ v4Text (highByte g) (lowByte g) (highByte h) (lowByte h)).toList =
      some (.v6 0 0 0 0 0 0xffff g h, []) := by
  have hback := scanGroups_mapped g h
  have hprefix : "::ffff:".toList = ':' :: ':' :: (Nat.toDigits 16 0xffff ++ [':']) := by decide
  rw [String.toList_append, toList_v4Text, hprefix]
  simp only [List.cons_append, List.append_assoc, List.nil_append]
  generalize Nat.toDigits 16 0xffff ++
    ':' :: v4Chars (highByte g) (lowByte g) (highByte h) (lowByte h) = cs at hback
  have hnoV4 : scanV4 (':' :: ':' :: cs) = none := scanV4_of_not_digit rfl
  have hfront : scanGroups 8 true (':' :: ':' :: cs) = (([], false), ':' :: ':' :: cs) := by
    have hgroup : scanGroup (':' :: ':' :: cs) = none := rfl
    rw [scanGroups]
    simp only [scanColon, if_true, Option.bind_some, hnoV4, ite_self, hgroup]
  rw [scan, hnoV4]
  simp [scanV6, hfront, scanMark, hback, ofGroups?]

theorem scan_text (ip : Ip) : scan ip.text.toList = some (ip, []) := by
  cases ip
  case v4 a b c d => rw [text, toList_v4Text, scan, scanV4_v4Chars]
  case v6 a b c d e f g h =>
    rw [text.eq_def]
    split
    case h_1 heq => cases heq
    case h_2 heq =>
      cases heq
      exact scan_mapped g h
    case h_3 heq =>
      cases heq
      rw [scan, scanV4_eq_none (not_mem_v6Text _), scanV6_v6Text rfl]

theorem ofText?_text (ip : Ip) : ofText? ip.text = some ip := by
  rw [ofText?, scan_text]
  rfl

end NamespaceService.Ip
