import NamespaceService.Json.Parser
import NamespaceService.Json.Record
import NamespaceService.Proofs.Text.Digits

namespace NamespaceService.Json

variable {c : Char} {cs rest : List Char} {n : Nat} {text : String}

theorem hexUnit?_control (h : n < 32) :
    hexUnit? '0' '0' (hexChar (n / 16)) (hexChar (n % 16)) = some n := by
  have hall : ∀ n < 32, hexUnit? '0' '0' (hexChar (n / 16)) (hexChar (n % 16)) = some n := by decide
  exact hall n h

theorem shortEscape?_of_escapeLetter? {e : Char} (h : escapeLetter? c = some e) :
    e ≠ 'u' ∧ shortEscape? e = some c := by
  rw [escapeLetter?.eq_def] at h
  split at h <;> cases h <;> exact ⟨by decide, rfl⟩

-- How a character is written: by a letter, by its number or as it is.
theorem escape_cons (c : Char) (cs : List Char) :
    (∃ e, e ≠ 'u' ∧ shortEscape? e = some c ∧ escape (c :: cs) = '\\' :: e :: escape cs) ∨
      (c.toNat < 32 ∧ escape (c :: cs) =
        '\\' :: 'u' :: '0' :: '0' :: hexChar (c.toNat / 16) :: hexChar (c.toNat % 16) :: escape cs) ∨
      (c ≠ '"' ∧ c ≠ '\\' ∧ 32 ≤ c.toNat ∧ escape (c :: cs) = c :: escape cs) := by
  rw [escape]
  cases hletter : escapeLetter? c
  case some e =>
    obtain ⟨he, hshort⟩ := shortEscape?_of_escapeLetter? hletter
    exact .inl ⟨e, he, hshort, rfl⟩
  case none =>
    dsimp only
    split
    case isTrue hcontrol => exact .inr (.inl ⟨hcontrol, rfl⟩)
    case isFalse hplain =>
      refine .inr (.inr ⟨?_, ?_, Nat.le_of_not_lt hplain, rfl⟩)
      all_goals
        rintro rfl
        cases hletter

theorem unescape_escape (cs : List Char) : unescape (escape cs) = some cs := by
  induction cs
  case nil => rfl
  case cons c cs ih =>
    obtain ⟨e, he, hshort, hwritten⟩ | ⟨hcontrol, hwritten⟩ | ⟨hquote, hslash, -, hwritten⟩ :=
      escape_cons c cs
    all_goals rw [hwritten]
    case inl =>
      rw [unescape]
      · simp [hshort, ih]
      · rintro _ _ _ _ _ rfl
        exact absurd rfl he
    case inr.inl =>
      have hunit := hexUnit?_control hcontrol
      have hhigh : isHighHalf c.toNat = false := by simp [isHighHalf]; omega
      have hlow : isLowHalf c.toNat = false := by simp [isLowHalf]; omega
      simp [unescape, hunit, hhigh, hlow, ih]
    case inr.inr =>
      rw [unescape]
      · simp [ih]
      · simp_all
      · simp_all

theorem scanString_escape (cs rest : List Char) :
    scanString (escape cs ++ '"' :: rest) = some (escape cs, rest) := by
  induction cs
  case nil => rfl
  case cons c cs ih =>
    obtain ⟨e, he, hshort, hwritten⟩ | ⟨hcontrol, hwritten⟩ | ⟨hquote, hslash, hplain, hwritten⟩ :=
      escape_cons c cs
    all_goals simp only [hwritten, List.cons_append]
    case inl =>
      rw [scanString]
      · simp [hshort, ih]
      · rintro _ _ _ _ _ rfl
        exact absurd rfl he
    case inr.inl => simp [scanString, hexUnit?_control hcontrol, ih]
    case inr.inr =>
      rw [scanString, if_neg (Nat.not_lt.mpr hplain), ih]
      · rfl
      · simp_all
      · simp_all
      · simp_all

theorem readLiteral?_writeLiteral (text : String) : readLiteral? (writeLiteral text) = some text := by
  simp [readLiteral?, writeLiteral, unescape_escape]

@[simp]
theorem text?_ofText (text : String) : (ofText text).text? = some text :=
  readLiteral?_writeLiteral text

theorem toList_toString (n : Nat) : (toString n).toList = Nat.toDigits 10 n :=
  Nat.toList_repr

theorem isDigit_of_mem (h : c ∈ Nat.toDigits 10 n) : c.isDigit :=
  Nat.isDigit_of_mem_toDigits (by decide) (by decide) h

theorem digitsValue_toDigits (n : Nat) : digitsValue (Nat.toDigits 10 n) = n := by
  have hvalue (digits : List Char) : digitsValue digits = Nat.ofDigitChars 10 digits 0 := by
    simp only [digitsValue, Nat.ofDigitChars, Nat.mul_comm 10]
  rw [hvalue, Nat.ofDigitChars_ten_toDigits]

@[simp]
theorem nat?_ofNat (n : Nat) : (ofNat n).nat? = some n := by
  have hdigits : (Nat.toDigits 10 n).all Char.isDigit :=
    List.all_eq_true.mpr fun _ => isDigit_of_mem
  rw [ofNat, nat?, toList_toString, if_pos ⟨Nat.toDigits_ne_nil, hdigits⟩, digitsValue_toDigits]

-- What cannot go on with a number.
def EndsNumber (rest : List Char) : Prop :=
  ∀ c ∈ rest.head?, c.isDigit = false ∧ c ≠ '.' ∧ c ≠ 'e' ∧ c ≠ 'E'

theorem takeWhile_isDigit (h : EndsNumber rest) : rest.takeWhile Char.isDigit = [] := by
  cases rest
  case nil => rfl
  case cons c rest => exact List.takeWhile_cons_of_neg (by simp [(h c rfl).1])

theorem scanDigits_toDigits (h : EndsNumber rest) (n : Nat) :
    scanDigits (Nat.toDigits 10 n ++ rest) = some (Nat.toDigits 10 n, rest) := by
  have htake : (Nat.toDigits 10 n ++ rest).takeWhile Char.isDigit = Nat.toDigits 10 n := by
    rw [List.takeWhile_append_of_pos fun _ => isDigit_of_mem, takeWhile_isDigit h, List.append_nil]
  have hdrop : (Nat.toDigits 10 n ++ rest).dropWhile Char.isDigit = rest := by
    have hsplit := List.takeWhile_append_dropWhile (p := Char.isDigit) (l := Nat.toDigits 10 n ++ rest)
    rwa [htake, List.append_cancel_left_eq] at hsplit
  rw [scanDigits, htake, hdrop]
  split
  case h_1 hnil => exact absurd hnil Nat.toDigits_ne_nil
  case h_2 => rfl

theorem scanNumber_toDigits (h : EndsNumber rest) (n : Nat) :
    scanNumber (Nat.toDigits 10 n ++ rest) = some (Nat.toDigits 10 n, rest) := by
  have hwhole : scanWhole (Nat.toDigits 10 n ++ rest) = some (Nat.toDigits 10 n, rest) := by
    rw [scanWhole, scanDigits_toDigits h]
    split
    case h_1 c cs _ hzero =>
      exact absurd (Prod.ext_iff.mp (Option.some.inj hzero)).1 (Text.toDigits_ne_zero_cons (by decide))
    case h_2 => rfl
  have hfraction : scanFraction rest = some ([], rest) := by
    rw [scanFraction.eq_def]
    split
    case h_1 => exact absurd rfl (h '.' rfl).2.1
    case h_2 => rfl
  have hexponent : scanExponent rest = some ([], rest) := by
    rw [scanExponent.eq_def]
    split
    case h_1 e rest => rw [if_neg (by simp [(h e rfl).2.2.1, (h e rfl).2.2.2])]
    case h_2 => rfl
  rw [scanNumber]
  · simp [hwhole, hfraction, hexponent]
  · intro tail hminus
    have hhead := congrArg List.head? hminus
    rw [List.head?_append, List.head?_eq_some_head Nat.toDigits_ne_nil, Option.some_or] at hhead
    have hdigit := isDigit_of_mem (List.head_mem (Nat.toDigits_ne_nil (n := n) (b := 10)))
    rw [Option.some.inj hhead] at hdigit
    cases hdigit

end NamespaceService.Json
