namespace NamespaceService.Counter

def add? (a b : UInt64) : Option UInt64 :=
  if h : a.toNat + b.toNat < UInt64.size then some (UInt64.ofNatLT (a.toNat + b.toNat) h) else none

def next? (a : UInt64) : Option UInt64 :=
  add? a 1

theorem toNat_of_add? {a b c : UInt64} (h : add? a b = some c) : c.toNat = a.toNat + b.toNat := by
  rw [add?] at h
  split at h
  · cases h; rfl
  · cases h

theorem add?_eq_none_iff {a b : UInt64} : add? a b = none ↔ UInt64.size ≤ a.toNat + b.toNat := by
  rw [add?]
  split <;> simp <;> omega

end NamespaceService.Counter
