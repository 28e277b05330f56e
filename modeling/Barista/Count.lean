/-
Counts: whole numbers of thirty-two bits.

Sums and differences that must be exact are refused when they do not fit;
the saturating ones stop at the ends instead. Each is described by its value
as a natural number.
-/
import Barista.Fault

namespace Barista

abbrev Count := UInt32

namespace Count

/-- The exact sum, if it fits. -/
def plus (a b : Count) : Except Fault Count :=
  if a.toNat + b.toNat < UInt32.size then .ok (a + b) else .error .additionOverflow

/-- The exact difference, if there is one. -/
def minus (a b : Count) : Except Fault Count :=
  if b ≤ a then .ok (a - b) else .error .subtractionOverflow

/-- The sum, or the largest count if it does not fit. -/
def plusCapped (a b : Count) : Count :=
  if a.toNat + b.toNat < UInt32.size then a + b else 4294967295

/-- The difference, or zero if there is none. -/
def minusFloored (a b : Count) : Count := if b ≤ a then a - b else 0

theorem toNat_of_plus_eq_ok {a b c : Count} (h : plus a b = .ok c) :
    c.toNat = a.toNat + b.toNat := by
  unfold plus at h
  split at h
  · injection h with h
    subst h
    rw [UInt32.toNat_add]
    have : UInt32.size = 4294967296 := rfl
    omega
  · cases h

theorem toNat_of_minus_eq_ok {a b c : Count} (h : minus a b = .ok c) :
    c.toNat + b.toNat = a.toNat := by
  unfold minus at h
  split at h
  · rename_i hle
    injection h with h
    subst h
    have hle' : b.toNat ≤ a.toNat := UInt32.le_iff_toNat_le.1 hle
    rw [UInt32.toNat_sub_of_le a b hle]
    omega
  · cases h

theorem toNat_minusFloored (a b : Count) : (minusFloored a b).toNat = a.toNat - b.toNat := by
  unfold minusFloored
  split
  · rename_i hle
    exact UInt32.toNat_sub_of_le a b hle
  · rename_i hlt
    have : a.toNat < b.toNat := by
      have := mt UInt32.le_iff_toNat_le.2 hlt
      omega
    simp
    omega

end Count

end Barista
