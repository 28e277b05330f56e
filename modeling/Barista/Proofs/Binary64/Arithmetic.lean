/-
What the operations on doubles give.

Each is `nearest` of the exact result, held between the infinities
(`position?_add`, `position?_mul`, `position?_div`), so each is monotone; and
a result that is finite was not held back (`units_add`, `units_mul`).
-/
import Barista.Binary64.Decimal
import Barista.Proofs.Binary64.Units

namespace Barista.Binary64

/-! ## Rounded results -/

/-- A count of units held between the places of the two infinities. -/
def held (z : Int) : Int := max (-(limit : Int)) (min limit z)

theorem held_mono {z z' : Int} (h : z ≤ z') : held z ≤ held z' := by
  unfold held; omega

theorem held_of_lt {z : Int} (hlo : -(limit : Int) < z) (hhi : z < limit) : held z = z := by
  unfold held; omega

theorem held_lt {z z' : Int} (h : z < z') (hlo : -(limit : Int) < z') (hhi : z' < limit) :
    held z < held z' := by
  unfold held; omega

theorem eq_of_held_lt {z : Int} (hlo : -(limit : Int) < held z) (hhi : held z < limit) :
    held z = z := by
  unfold held at *; omega

theorem position?_ofQuotient (s : Bool) (num den : Nat) :
    (ofQuotient s num den).position? = some (held (signed s (roundUnits num den))) := by
  have hlim : (0 : Int) < limit := Int.natCast_pos.2 limit_pos
  unfold ofQuotient
  split
  · next h =>
    cases s <;> simp only [position?, signed, held, Option.some.injEq] <;> simp <;> omega
  · next h =>
    cases s <;> simp only [position?, signed, held, Option.some.injEq] <;> simp <;> omega

theorem position?_zero (s : Bool) : (zero s).position? = some 0 := by cases s <;> rfl

theorem held_zero : held 0 = 0 := by
  have := Int.natCast_pos.2 limit_pos
  exact held_of_lt (by omega) this

theorem held_nonneg {z : Int} (h : 0 ≤ z) : 0 ≤ held z := by
  rw [← held_zero]
  exact held_mono h

theorem held_pos {z : Int} (h : 0 < z) : 0 < held z := by
  have := limit_pos
  unfold held; omega

theorem held_neg {z : Int} (h : z < 0) : held z < 0 := by
  have := limit_pos
  unfold held; omega

/-- The sum is the exact sum, rounded and held. -/
theorem position?_add {a b : Binary64} (ha : a.isFinite = true) (hb : b.isFinite = true) :
    (a + b).position? = some (held (nearest (a.units + b.units) 1)) := by
  cases a with
  | nan => cases ha
  | infinity s => cases ha
  | finite s m hm =>
  cases b with
  | nan => cases hb
  | infinity t => cases hb
  | finite t n hn =>
    show (add _ _).position? = _
    simp only [add, units]
    split
    · next h => rw [h, position?_zero, nearest_zero, held_zero]
    · next h => rw [position?_ofQuotient]; rfl

theorem position?_sub {a b : Binary64} (ha : a.isFinite = true) (hb : b.isFinite = true) :
    (a - b).position? = some (held (nearest (a.units - b.units) 1)) := by
  show (a + -b).position? = _
  rw [position?_add ha (by rw [isFinite_neg]; exact hb), units_neg, Int.sub_eq_add_neg]

theorem signed_mul_signed (s t : Bool) (m n : Nat) :
    signed s m * signed t n = signed (s != t) (m * n) := by
  cases s <;> cases t <;> simp [signed]

theorem position?_mul {a b : Binary64} (ha : a.isFinite = true) (hb : b.isFinite = true) :
    (a * b).position? = some (held (nearest (a.units * b.units) one)) := by
  cases a with
  | nan => cases ha
  | infinity s => cases ha
  | finite s m hm =>
  cases b with
  | nan => cases hb
  | infinity t => cases hb
  | finite t n hn =>
    show (mul _ _).position? = _
    simp only [mul, units]
    rw [position?_ofQuotient, signed_mul_signed, nearest_signed]

theorem position?_div {a b : Binary64} (ha : a.isFinite = true) (hb : b.isFinite = true)
    (hpos : 0 < b.units) :
    (a / b).position? = some (held (nearest (a.units * one) b.units.natAbs)) := by
  obtain ⟨n, hn, rfl⟩ := exists_finite_of_pos hb hpos
  cases a with
  | nan => cases ha
  | infinity s => cases ha
  | finite s m hm =>
    have hn0 : n ≠ 0 := by rintro rfl; simp [units] at hpos
    have e : signed s m * one = signed s (m * one) := by cases s <;> simp [signed]
    show (div _ _).position? = _
    simp only [div, hn0, if_false]
    simp only [units]
    rw [position?_ofQuotient, natAbs_signed, e, nearest_signed, Bool.bne_false]

theorem position?_ofWhole (s : Bool) (n : Nat) :
    (ofWhole s n).position? = some (held (nearest (signed s (n * one)) 1)) := by
  rw [ofWhole, position?_ofQuotient, nearest_signed]

theorem zero_false : zero false = 0 := by decide +kernel

theorem units_zero : (0 : Binary64).units = 0 := by decide +kernel

theorem isFinite_zero : (0 : Binary64).isFinite = true := by decide +kernel

theorem pos_iff_units {x : Binary64} (hx : x.isFinite = true) : 0 < x ↔ 0 < x.units := by
  rw [lt_iff_units isFinite_zero hx, units_zero]

/-! ## Finite results -/

theorem units_of_position? {x : Binary64} {z : Int} (hx : x.isFinite = true)
    (h : x.position? = some (held z)) : x.units = z := by
  rw [position?_eq_units hx] at h
  injection h with h
  have := units_lt x
  rw [h]
  exact eq_of_held_lt (by omega) (by omega)

theorem isFinite_of_add {a b : Binary64} (h : (a + b).isFinite = true) :
    a.isFinite = true ∧ b.isFinite = true := by
  change (add a b).isFinite = true at h
  cases a <;> cases b <;> simp only [add] at h <;> first
    | exact ⟨rfl, rfl⟩
    | cases h
    | (split at h <;> cases h)

theorem isFinite_of_mul {a b : Binary64} (h : (a * b).isFinite = true) :
    a.isFinite = true ∧ b.isFinite = true := by
  change (mul a b).isFinite = true at h
  cases a <;> cases b <;> simp only [mul] at h <;> first
    | exact ⟨rfl, rfl⟩
    | cases h
    | (split at h <;> cases h)

theorem units_add {a b : Binary64} (h : (a + b).isFinite = true) :
    (a + b).units = nearest (a.units + b.units) 1 :=
  units_of_position? h (position?_add (isFinite_of_add h).1 (isFinite_of_add h).2)

theorem units_sub {a b : Binary64} (h : (a - b).isFinite = true) :
    (a - b).units = nearest (a.units - b.units) 1 := by
  have h' : (a + -b).isFinite = true := h
  have e := units_add h'
  rw [units_neg, ← Int.sub_eq_add_neg] at e
  exact e

theorem units_mul {a b : Binary64} (h : (a * b).isFinite = true) :
    (a * b).units = nearest (a.units * b.units) one :=
  units_of_position? h (position?_mul (isFinite_of_mul h).1 (isFinite_of_mul h).2)

/-! ## Results that are numbers -/

theorem isNaN_ofQuotient (s : Bool) (num den : Nat) : (ofQuotient s num den).isNaN = false := by
  unfold ofQuotient
  split <;> rfl

/-- Only infinities of different signs have no sum. -/
theorem isNaN_add {a b : Binary64} (ha : a.isNaN = false) (hb : b.isFinite = true) :
    (a + b).isNaN = false := by
  cases a with
  | nan => cases ha
  | infinity s =>
    cases b with
    | nan => cases hb
    | infinity t => cases hb
    | finite t n v => rfl
  | finite s m u =>
    obtain ⟨z, hz⟩ : ∃ z, (finite s m u + b).position? = some z := ⟨_, position?_add rfl hb⟩
    cases hsum : finite s m u + b with
    | nan => rw [hsum] at hz; cases hz
    | infinity t => rfl
    | finite t n v => rfl

/-! ## Up and down -/

variable {x y : Binary64}

theorem le_add (hx : x.isFinite = true) (hy : y.isFinite = true) (h0 : 0 ≤ y.units) :
    x ≤ x + y := by
  have hle := held_mono (nearest_mono_units (show x.units ≤ x.units + y.units by omega))
  rw [nearest_units, held_of_lt (units_lt x).1 (units_lt x).2] at hle
  exact le_iff.2 ⟨_, _, position?_eq_units hx, position?_add hx hy, hle⟩

theorem sub_le (hx : x.isFinite = true) (hy : y.isFinite = true) (h0 : 0 ≤ y.units) :
    x - y ≤ x := by
  have hle := held_mono (nearest_mono_units (show x.units - y.units ≤ x.units by omega))
  rw [nearest_units, held_of_lt (units_lt x).1 (units_lt x).2] at hle
  exact le_iff.2 ⟨_, _, position?_sub hx hy, position?_eq_units hx, hle⟩

/-- Positive numbers differ by zero, with no minus sign, if the difference has neither sign. -/
theorem sub_eq_zero_or_pos (hx : x.isFinite = true) (hy : y.isFinite = true) (hx0 : 0 < x)
    (hy0 : 0 < y) (h : ¬ x - y < 0) : x - y = 0 ∨ 0 < x - y := by
  have hplace := position?_sub hx hy
  have hzero := position?_eq_units isFinite_zero
  rw [units_zero] at hzero
  rcases lt_trichotomy x.units y.units with hlt | heq | hgt
  · have hneg : nearest (x.units - y.units) 1 < 0 := by
      have := nearest_pos (show 0 < y.units - x.units by omega)
      rw [← Int.neg_sub, nearest_neg]
      omega
    exact absurd (lt_iff.2 ⟨_, _, hplace, hzero, held_neg hneg⟩) h
  · left
    obtain ⟨m, v, rfl⟩ := exists_finite_of_pos hx ((pos_iff_units hx).1 hx0)
    obtain ⟨n, w, rfl⟩ := exists_finite_of_pos hy ((pos_iff_units hy).1 hy0)
    obtain rfl : m = n := Int.ofNat_inj.1 heq
    show add (finite false m v) (finite true m w) = 0
    simp [add, signed, zero_false]
  · exact .inr (lt_iff.2 ⟨_, _, hzero, hplace, held_pos (nearest_pos (by omega))⟩)

theorem isNaN_or_le_add (hx : x.isFinite = true) (hy : y.isNaN = true ∨ 0 ≤ y) :
    (x + y).isNaN = true ∨ x ≤ x + y := by
  cases x with
  | nan => cases hx
  | infinity s => cases hx
  | finite s m u =>
    cases y with
    | nan => exact .inl rfl
    | infinity t =>
      rcases hy with hnan | hpos
      · cases hnan
      · cases t with
        | true => exact absurd hpos (by decide +kernel)
        | false => exact .inr (le_iff.2 ⟨_, _, rfl, rfl, Int.le_of_lt (units_lt (finite s m u)).2⟩)
    | finite t n v =>
      rcases hy with hnan | hpos
      · cases hnan
      · rw [le_iff_units isFinite_zero rfl, units_zero] at hpos
        exact .inr (le_add rfl rfl hpos)

theorem isNaN_or_sub_le (hx : x.isFinite = true) (hy : y.isNaN = true ∨ 0 ≤ y) :
    (x - y).isNaN = true ∨ x - y ≤ x := by
  cases x with
  | nan => cases hx
  | infinity s => cases hx
  | finite s m u =>
    cases y with
    | nan => exact .inl rfl
    | infinity t =>
      rcases hy with hnan | hpos
      · cases hnan
      · cases t with
        | true => exact absurd hpos (by decide +kernel)
        | false => exact .inr (le_iff.2 ⟨_, _, rfl, rfl, Int.le_of_lt (units_lt (finite s m u)).1⟩)
    | finite t n v =>
      rcases hy with hnan | hpos
      · cases hnan
      · rw [le_iff_units isFinite_zero rfl, units_zero] at hpos
        exact .inr (sub_le rfl rfl hpos)

/-! ## Magnitudes -/

theorem isFinite_abs (x : Binary64) : x.abs.isFinite = x.isFinite := by cases x <;> rfl

theorem units_abs (x : Binary64) : x.abs.units = x.units.natAbs := by
  cases x with
  | nan => rfl
  | infinity s => rfl
  | finite s n v => rw [units, natAbs_signed]; rfl

theorem greatest_spec (hx : x.isFinite = true) (hy : y.isFinite = true) :
    (x.greatest y).isFinite = true ∧ x.units ≤ (x.greatest y).units ∧
      y.units ≤ (x.greatest y).units := by
  simp only [greatest, isNaN_of_isFinite hx, Bool.false_eq_true, if_false]
  split
  · next hlt => exact ⟨hy, Int.le_of_lt ((lt_iff_units hx hy).1 hlt), Int.le_refl _⟩
  · next hlt => exact ⟨hx, Int.le_refl _, Int.not_lt.1 fun h => hlt ((lt_iff_units hx hy).2 h)⟩

end Barista.Binary64
