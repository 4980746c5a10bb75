namespace NamespaceService.Text

variable {base n : Nat}

theorem head?_toDigits (hbase : 1 < base) (h : 0 < n) :
    (Nat.toDigits base n).head? ≠ some '0' := by
  induction n using Nat.base_induction base hbase
  case single m hm => simp [Nat.toDigits_of_lt_base hm, Nat.pos_iff_ne_zero.mp h]
  case digit m k hk hm ih =>
    rw [← Nat.toDigits_append_toDigits hbase hm hk, List.head?_append,
      List.head?_eq_some_head Nat.toDigits_ne_nil, Option.some_or,
      ← List.head?_eq_some_head Nat.toDigits_ne_nil]
    exact ih hm

-- Only zero begins with a zero, and then there is nothing else.
theorem toDigits_ne_zero_cons (hbase : 1 < base) {c : Char} {cs : List Char} :
    Nat.toDigits base n ≠ '0' :: c :: cs := by
  intro h
  cases Nat.eq_zero_or_pos n
  case inl hzero =>
    rw [hzero, Nat.toDigits_zero] at h
    simp at h
  case inr hpos => exact head?_toDigits hbase hpos (h ▸ rfl)

end NamespaceService.Text
