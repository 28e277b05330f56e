/-
Integers among the doubles.

`Binary64.ofInt` is the double nearest to an integer, and zero has no minus
sign in it. Up to `2^53` in magnitude integers are doubles (`ofInt_eq`), so
their sums and differences are those of the integers, as doubles and not only
as numbers (`ofInt_add`, `ofInt_sub`), and so is their order. Below `2^53` one
is still more than half a gap, so no whole rate is swallowed there.
-/
import Barista.Proofs.Binary64.Stall

namespace Barista.Binary64

/-- The double nearest to an integer. -/
def ofInt (z : Int) : Binary64 := ofWhole (decide (z < 0)) z.natAbs

theorem ofInt_natCast (n : Nat) : ofInt n = ofNat n := by
  have hnonneg : ¬ (n : Int) < 0 := Int.not_lt.2 (Int.natCast_nonneg n)
  simp [ofInt, ofNat, hnonneg]

/-! ## Where integers stand -/

theorem ofNat_mono {a b : Nat} (h : a ≤ b) : ofNat a ≤ ofNat b := by
  refine le_iff.2 ⟨_, _, position?_ofWhole false a, position?_ofWhole false b, ?_⟩
  have hunits : ((a * one : Nat) : Int) ≤ (b * one : Nat) :=
    Int.ofNat_le.2 (Nat.mul_le_mul_right one h)
  exact held_mono (nearest_mono_units hunits)

theorem signed_mul (s : Bool) (m n : Nat) : signed s (m * n) = signed s m * n := by
  cases s <;> simp [signed]

/-- An integer up to `2^53` is a double, with the sign of the integer. -/
theorem ofInt_eq {z : Int} (h : z.natAbs ≤ 2 ^ 53) :
    ∃ v, ofInt z = finite (decide (z < 0)) (z.natAbs * one) v := by
  have hexact : roundUnits (z.natAbs * one) 1 = z.natAbs * one := by
    have := onGrid_mul_one h
    have := roundUnits_mul_of_dvd Nat.one_pos (show gap (z.natAbs * one) ∣ z.natAbs * one from this)
    rwa [Nat.mul_one] at this
  have hlt := mul_one_lt_limit h
  refine ⟨⟨hlt, onGrid_mul_one h⟩, ?_⟩
  simp only [ofInt, ofWhole, ofQuotient, hexact, dif_pos hlt]

theorem ofInt_spec {z : Int} (h : z.natAbs ≤ 2 ^ 53) :
    (ofInt z).isFinite = true ∧ (ofInt z).units = z * one := by
  obtain ⟨v, hz⟩ := ofInt_eq h
  rw [hz]
  refine ⟨rfl, ?_⟩
  rw [units, signed_mul, signed_natAbs]

variable {a b : Int}

theorem ofInt_lt_ofInt (ha : a.natAbs ≤ 2 ^ 53) (hb : b.natAbs ≤ 2 ^ 53) :
    ofInt a < ofInt b ↔ a < b := by
  obtain ⟨fa, ea⟩ := ofInt_spec ha
  obtain ⟨fb, eb⟩ := ofInt_spec hb
  rw [lt_iff_units fa fb, ea, eb]
  exact Int.mul_lt_mul_right (Int.natCast_pos.2 one_pos)

theorem ofInt_le_ofInt (ha : a.natAbs ≤ 2 ^ 53) (hb : b.natAbs ≤ 2 ^ 53) :
    ofInt a ≤ ofInt b ↔ a ≤ b := by
  obtain ⟨fa, ea⟩ := ofInt_spec ha
  obtain ⟨fb, eb⟩ := ofInt_spec hb
  rw [le_iff_units fa fb, ea, eb]
  exact Int.mul_le_mul_right (Int.natCast_pos.2 one_pos)

theorem ofInt_pos (h : a.natAbs ≤ 2 ^ 53) : 0 < ofInt a ↔ 0 < a :=
  ofInt_lt_ofInt (a := 0) (by decide) h

theorem ofInt_neg (h : a.natAbs ≤ 2 ^ 53) : ofInt a < 0 ↔ a < 0 :=
  ofInt_lt_ofInt (b := 0) h (by decide)

theorem one_le_ofInt (h : a.natAbs ≤ 2 ^ 53) : 1 ≤ ofInt a ↔ 1 ≤ a :=
  ofInt_le_ofInt (a := 1) (by decide) h

/-! ## Sums -/

/-- A sum that is an integer is the integer's double, if a sum of zero does not come out negative. -/
theorem add_eq_ofInt {s t : Bool} {m n : Nat} {v : Representable m} {w : Representable n} {z : Int}
    (hsum : signed s m + signed t n = z * one) (hsign : z = 0 → (s && t) = false) :
    finite s m v + finite t n w = ofInt z := by
  show add _ _ = _
  have hone : (0 : Int) < one := Int.natCast_pos.2 one_pos
  by_cases hz : z = 0
  · simp only [add, hsum, hz, Int.zero_mul, if_true, hsign hz, zero_false]
    rfl
  · have hne : z * one ≠ 0 := Int.mul_ne_zero hz (by omega)
    have hneg : z * one < 0 ↔ z < 0 := by
      constructor
      · intro h
        by_contra hnonneg
        have := Int.mul_nonneg (Int.not_lt.1 hnonneg) (Int.le_of_lt hone)
        omega
      · intro h
        exact Int.mul_neg_of_neg_of_pos h hone
    simp only [add, hsum, hne, if_false, hneg, Int.natAbs_mul, Int.natAbs_natCast]
    rfl

theorem ofInt_add (ha : a.natAbs ≤ 2 ^ 53) (hb : b.natAbs ≤ 2 ^ 53) :
    ofInt a + ofInt b = ofInt (a + b) := by
  obtain ⟨v, hv⟩ := ofInt_eq ha
  obtain ⟨w, hw⟩ := ofInt_eq hb
  rw [hv, hw]
  refine add_eq_ofInt ?_ fun h => ?_
  · rw [signed_mul, signed_mul, signed_natAbs, signed_natAbs, Int.add_mul]
  · simp
    omega

theorem ofInt_sub (ha : a.natAbs ≤ 2 ^ 53) (hb : b.natAbs ≤ 2 ^ 53) :
    ofInt a - ofInt b = ofInt (a - b) := by
  obtain ⟨v, hv⟩ := ofInt_eq ha
  obtain ⟨w, hw⟩ := ofInt_eq hb
  rw [hv, hw]
  refine add_eq_ofInt ?_ fun h => ?_
  · rw [signed_not, signed_mul, signed_mul, signed_natAbs, signed_natAbs, Int.sub_mul,
      Int.sub_eq_add_neg]
  · simp
    omega

/-! ## Magnitudes -/

theorem ofInt_abs {z : Int} (h : z.natAbs ≤ 2 ^ 53) : (ofInt z).abs = ofInt z.natAbs := by
  obtain ⟨v, hz⟩ := ofInt_eq h
  obtain ⟨w, hw⟩ := ofInt_eq (z := z.natAbs) h
  have hnonneg : ¬ (z.natAbs : Int) < 0 := Int.not_lt.2 (Int.natCast_nonneg _)
  rw [hz, hw]
  simp only [abs, hnonneg, decide_false, Int.natAbs_natCast]

theorem ofInt_greatest (ha : a.natAbs ≤ 2 ^ 53) (hb : b.natAbs ≤ 2 ^ 53) :
    (ofInt a).greatest (ofInt b) = ofInt (max a b) := by
  rw [greatest, isNaN_of_isFinite (ofInt_spec ha).1, if_neg (by simp)]
  by_cases hlt : a < b
  · rw [if_pos ((ofInt_lt_ofInt ha hb).2 hlt), max_eq_right (Int.le_of_lt hlt)]
  · rw [if_neg (mt (ofInt_lt_ofInt ha hb).1 hlt), max_eq_left (Int.not_lt.1 hlt)]

/-- A whole rate moves every integer from zero up to `2^53`. -/
theorem sameNumber_ofInt_add {z r : Int} (hz : 0 ≤ z) (hsmall : z < 2 ^ 53) (hr : 1 ≤ r)
    (hr' : r.natAbs ≤ 2 ^ 53) : (ofInt z + ofInt r).sameNumber (ofInt z) = false := by
  obtain ⟨fz, ez⟩ := ofInt_spec (z := z) (by omega)
  obtain ⟨fr, er⟩ := ofInt_spec hr'
  rw [← Bool.not_eq_true, sameNumber_add_iff fz fr, ez, er, ← Int.add_mul]
  have hone : (0 : Int) < one := Int.natCast_pos.2 one_pos
  obtain ⟨n, rfl⟩ := Int.eq_ofNat_of_zero_le hz
  have hnext : nearest ((n + 1 : Nat) * one : Nat) 1 = ((n + 1 : Nat) * one : Nat) :=
    (onGrid_mul_one (by omega)).nearest_eq
  have hle : (((n + 1 : Nat) * one : Nat) : Int) ≤ ((n : Int) + r) * one := by
    rw [Int.natCast_mul]
    exact Int.mul_le_mul_of_nonneg_right (by omega) (Int.le_of_lt hone)
  have hup := nearest_mono_units hle
  rw [hnext, Nat.succ_mul, Int.natCast_add, Int.natCast_mul] at hup
  omega

theorem gap_mul_one_le {n : Nat} (h : n < 2 ^ 53) : gap (n * one) ≤ one := by
  rcases Nat.eq_zero_or_pos n with rfl | hn
  · rw [Nat.zero_mul, gap_eq_one (by decide)]
    exact one_pos
  · have hlog : (n * one).log2 < 53 + unitPlaces := by
      rw [Nat.log2_lt (Nat.ne_of_gt (Nat.mul_pos hn one_pos)), Nat.pow_add, ← one_eq]
      exact Nat.mul_lt_mul_of_pos_right h one_pos
    rw [gap_eq, one_eq]
    exact Nat.pow_le_pow_right (by decide) (by rw [← one_eq]; omega)

theorem gap_lt_two_mul {n : Nat} (h : n < 2 ^ 53) {r : Int} (hr : 1 ≤ r) :
    (gap (n * one) : Int) < 2 * (r * one) := by
  have hgap := gap_mul_one_le h
  have hone := one_pos
  have := Int.mul_le_mul_of_nonneg_right hr (Int.natCast_nonneg one)
  omega

end Barista.Binary64
