/-
Doubles as whole numbers of units, with their sign.

`Binary64.units` is where a finite double stands, in units of `2^-1074`, and
`Binary64.value` the number it is. An operation gives `nearest` of its exact
result, held between the infinities: `position?_add`, `position?_mul`,
`position?_div`. So what is said about sums and differences later is said
about integers and `nearest`, which is monotone (`nearest_mono`), leaves a
double where it stands (`nearest_units`) and moves nothing by more than half
a gap (`nearest_error`).
-/
import Barista.Proofs.Binary64.Rounding
import Mathlib.Data.Rat.Cast.Order
import Mathlib.Order.MinMax

namespace Barista.Binary64

/-! ## The nearest count of units, signed -/

/-- The count of units nearest to `z / den`, with its sign, as if doubles had no end. -/
def nearest (z : Int) (den : Nat) : Int := signed (decide (z < 0)) (roundUnits z.natAbs den)

theorem natAbs_signed (s : Bool) (n : Nat) : (signed s n).natAbs = n := by
  cases s <;> simp [signed]

theorem signed_natAbs (z : Int) : signed (decide (z < 0)) z.natAbs = z := by
  unfold signed
  split <;> rename_i h <;> simp at h <;> omega

@[simp] theorem signed_zero (s : Bool) : signed s 0 = 0 := by cases s <;> rfl

theorem signed_not (s : Bool) (n : Nat) : signed (!s) n = -signed s n := by
  cases s <;> simp [signed]

theorem nearest_natCast (n den : Nat) : nearest n den = roundUnits n den := by
  simp [nearest, signed]

@[simp] theorem nearest_zero (den : Nat) : nearest 0 den = 0 := by simp [nearest]

theorem nearest_neg (z : Int) (den : Nat) : nearest (-z) den = -nearest z den := by
  rcases lt_trichotomy z 0 with h | rfl | h
  · simp [nearest, signed, h, Int.le_of_lt h]
  · simp
  · simp [nearest, signed, h, Int.not_lt.2 (Int.le_of_lt h)]

theorem nearest_signed (s : Bool) (n den : Nat) :
    nearest (signed s n) den = signed s (roundUnits n den) := by
  cases s
  · exact nearest_natCast n den
  · simp only [signed, if_true, nearest_neg, nearest_natCast]

theorem natAbs_nearest (z : Int) (den : Nat) : (nearest z den).natAbs = roundUnits z.natAbs den :=
  natAbs_signed _ _

theorem nearest_nonneg {z : Int} (h : 0 ≤ z) (den : Nat) : 0 ≤ nearest z den := by
  obtain ⟨n, rfl⟩ := Int.eq_ofNat_of_zero_le h
  rw [nearest_natCast]
  exact Int.natCast_nonneg _

theorem nearest_mono {z z' : Int} {d d' : Nat} (hd : 0 < d) (hd' : 0 < d')
    (h : z * d' ≤ z' * d) : nearest z d ≤ nearest z' d' := by
  -- Magnitudes on the same side of zero are compared by `roundUnits_mono`.
  have hnat : ∀ {m n : Nat} {d d' : Nat}, 0 < d → 0 < d' → (m : Int) * d' ≤ n * d →
      nearest m d ≤ nearest n d' := by
    intro m n d d' hd hd' h
    rw [nearest_natCast, nearest_natCast]
    exact Int.ofNat_le.2 (roundUnits_mono hd hd' (by exact_mod_cast h))
  have hdpos : (0 : Int) < d := Int.natCast_pos.2 hd
  have hdpos' : (0 : Int) < d' := Int.natCast_pos.2 hd'
  rcases Int.lt_or_le z 0 with hz | hz <;> rcases Int.lt_or_le z' 0 with hz' | hz'
  · obtain ⟨m, rfl⟩ := Int.exists_eq_neg_ofNat (Int.le_of_lt hz)
    obtain ⟨n, rfl⟩ := Int.exists_eq_neg_ofNat (Int.le_of_lt hz')
    rw [nearest_neg, nearest_neg]
    exact Int.neg_le_neg (hnat hd' hd (by rw [Int.neg_mul, Int.neg_mul] at h; omega))
  · obtain ⟨m, rfl⟩ := Int.exists_eq_neg_ofNat (Int.le_of_lt hz)
    have := nearest_nonneg (Int.natCast_nonneg m) d
    rw [nearest_neg]
    exact Int.le_trans (by omega) (nearest_nonneg hz' d')
  · exfalso
    have h1 := Int.mul_nonneg hz (Int.le_of_lt hdpos')
    have h2 := Int.mul_neg_of_neg_of_pos hz' hdpos
    omega
  · obtain ⟨m, rfl⟩ := Int.eq_ofNat_of_zero_le hz
    obtain ⟨n, rfl⟩ := Int.eq_ofNat_of_zero_le hz'
    exact hnat hd hd' h

theorem nearest_mono_units {z z' : Int} (h : z ≤ z') : nearest z 1 ≤ nearest z' 1 :=
  nearest_mono Nat.one_pos Nat.one_pos (by omega)

theorem nearest_pos {z : Int} (h : 0 < z) : 0 < nearest z 1 := by
  have hunit : nearest 1 1 = 1 := by decide
  have := nearest_mono_units (show 1 ≤ z by omega)
  omega

theorem nearest_nonpos {z : Int} (h : z ≤ 0) : nearest z 1 ≤ 0 := by
  have := nearest_mono_units h
  rwa [nearest_zero] at this

theorem nearest_of_dvd {z : Int} (h : gap z.natAbs ∣ z.natAbs) : nearest z 1 = z := by
  have := roundUnits_mul_of_dvd Nat.one_pos h
  rw [Nat.mul_one] at this
  rw [nearest, this, signed_natAbs]

theorem nearest_error (z : Int) :
    2 * nearest z 1 ≤ 2 * z + gap z.natAbs ∧ 2 * z ≤ 2 * nearest z 1 + gap z.natAbs := by
  have h := roundUnits_error z.natAbs Nat.one_pos
  simp only [Nat.mul_one, Nat.one_mul, Nat.div_one] at h
  unfold nearest signed
  split <;> rename_i hz <;> simp only [decide_eq_true_eq] at hz <;> omega

theorem gap_dvd_nearest (z : Int) : (gap z.natAbs : Int) ∣ nearest z 1 := by
  rw [Int.natCast_dvd, natAbs_nearest]
  simpa using gap_dvd_roundUnits z.natAbs 1

/-! ## Where a double stands -/

/-- The number in units, with its sign; zero for what is not finite. -/
def units : Binary64 → Int
  | .finite s n _ => signed s n
  | _ => 0

/-- The number that a finite double is. -/
def value (x : Binary64) : ℚ := x.units / one

theorem representable_units (x : Binary64) : Representable x.units.natAbs := by
  cases x with
  | nan => exact representable_zero
  | infinity s => exact representable_zero
  | finite s n h => rw [units, natAbs_signed]; exact h

theorem units_lt (x : Binary64) : -(limit : Int) < x.units ∧ x.units < limit := by
  have := (representable_units x).1
  omega

theorem nearest_units (x : Binary64) : nearest x.units 1 = x.units :=
  nearest_of_dvd (representable_units x).2

theorem position?_eq_units {x : Binary64} (h : x.isFinite = true) : x.position? = some x.units := by
  cases x with
  | nan => cases h
  | infinity s => cases h
  | finite s n v => rfl

theorem units_neg (x : Binary64) : (-x).units = -x.units := by
  cases x with
  | nan => rfl
  | infinity s => rfl
  | finite s n v => exact signed_not s n

theorem isFinite_neg (x : Binary64) : (-x).isFinite = x.isFinite := by cases x <;> rfl

theorem isFinite_of_position? {x : Binary64} {z : Int} (h : x.position? = some z)
    (hlo : -(limit : Int) < z) (hhi : z < limit) : x.isFinite = true ∧ x.units = z := by
  cases x with
  | nan => cases h
  | infinity s => cases h; cases s <;> simp [signed] at hlo hhi
  | finite s n v => cases h; exact ⟨rfl, rfl⟩

theorem isNaN_of_isFinite {x : Binary64} (h : x.isFinite = true) : x.isNaN = false := by
  cases x with
  | nan => cases h
  | infinity s => rfl
  | finite s n v => rfl

theorem eq_zero_of_nonneg {n : Nat} {v : Representable n} (h : 0 ≤ (finite true n v).units) :
    n = 0 := by
  simp only [units, signed, if_true] at h
  omega

theorem exists_finite_of_pos {x : Binary64} (hx : x.isFinite = true) (h : 0 < x.units) :
    ∃ n v, x = .finite false n v := by
  cases x with
  | nan => cases hx
  | infinity s => cases hx
  | finite s n v =>
    cases s with
    | false => exact ⟨n, v, rfl⟩
    | true =>
      obtain rfl := eq_zero_of_nonneg (Int.le_of_lt h)
      simp [units] at h

/-! ## Order -/

theorem lt_iff {a b : Binary64} :
    a < b ↔ ∃ x y, a.position? = some x ∧ b.position? = some y ∧ x < y := by
  show related _ a b = true ↔ _
  unfold related
  cases a.position? <;> cases b.position? <;> simp

theorem le_iff {a b : Binary64} :
    a ≤ b ↔ ∃ x y, a.position? = some x ∧ b.position? = some y ∧ x ≤ y := by
  show related _ a b = true ↔ _
  unfold related
  cases a.position? <;> cases b.position? <;> simp

theorem lt_iff_units {a b : Binary64} (ha : a.isFinite = true) (hb : b.isFinite = true) :
    a < b ↔ a.units < b.units := by
  simp [lt_iff, position?_eq_units ha, position?_eq_units hb]

theorem le_iff_units {a b : Binary64} (ha : a.isFinite = true) (hb : b.isFinite = true) :
    a ≤ b ↔ a.units ≤ b.units := by
  simp [le_iff, position?_eq_units ha, position?_eq_units hb]

theorem exists_position? {x : Binary64} (h : x.isNaN = false) : ∃ z, x.position? = some z := by
  cases x with
  | nan => cases h
  | infinity s => exact ⟨_, rfl⟩
  | finite s n v => exact ⟨_, rfl⟩

protected theorem lt_or_le {a b : Binary64} (ha : a.isNaN = false) (hb : b.isNaN = false) :
    a < b ∨ b ≤ a := by
  obtain ⟨x, hx⟩ := exists_position? ha
  obtain ⟨y, hy⟩ := exists_position? hb
  rcases Int.lt_or_le x y with hlt | hle
  · exact .inl (lt_iff.2 ⟨x, y, hx, hy, hlt⟩)
  · exact .inr (le_iff.2 ⟨y, x, hy, hx, hle⟩)

theorem le_of_not_lt {a b : Binary64} (ha : a.isFinite = true) (hb : b.isFinite = true)
    (h : ¬ a < b) : b ≤ a :=
  (Binary64.lt_or_le (isNaN_of_isFinite ha) (isNaN_of_isFinite hb)).resolve_left h

protected theorem le_refl {a : Binary64} (ha : a.isFinite = true) : a ≤ a :=
  (le_iff_units ha ha).2 (Int.le_refl _)

protected theorem le_trans {a b c : Binary64} (hab : a ≤ b) (hbc : b ≤ c) : a ≤ c := by
  obtain ⟨x, y, hx, hy, hxy⟩ := le_iff.1 hab
  obtain ⟨y', z, hy', hz, hyz⟩ := le_iff.1 hbc
  rw [hy] at hy'
  cases hy'
  exact le_iff.2 ⟨x, z, hx, hz, Int.le_trans hxy hyz⟩

protected theorem le_of_lt {a b : Binary64} (h : a < b) : a ≤ b := by
  obtain ⟨x, y, hx, hy, hxy⟩ := lt_iff.1 h
  exact le_iff.2 ⟨x, y, hx, hy, Int.le_of_lt hxy⟩

protected theorem lt_of_lt_of_le {a b c : Binary64} (hab : a < b) (hbc : b ≤ c) : a < c := by
  obtain ⟨x, y, hx, hy, hxy⟩ := lt_iff.1 hab
  obtain ⟨y', z, hy', hz, hyz⟩ := le_iff.1 hbc
  rw [hy] at hy'
  cases hy'
  exact lt_iff.2 ⟨x, z, hx, hz, Int.lt_of_lt_of_le hxy hyz⟩

protected theorem lt_of_le_of_lt {a b c : Binary64} (hab : a ≤ b) (hbc : b < c) : a < c := by
  obtain ⟨x, y, hx, hy, hxy⟩ := le_iff.1 hab
  obtain ⟨y', z, hy', hz, hyz⟩ := lt_iff.1 hbc
  rw [hy] at hy'
  cases hy'
  exact lt_iff.2 ⟨x, z, hx, hz, Int.lt_of_le_of_lt hxy hyz⟩

protected theorem not_lt_of_le {a b : Binary64} (h : a ≤ b) : ¬ b < a := by
  intro hlt
  obtain ⟨x, y, hx, hy, hxy⟩ := lt_iff.1 (Binary64.lt_of_le_of_lt h hlt)
  rw [hx] at hy
  cases hy
  omega

/-- What is not larger is smaller, unless it is the same number. -/
theorem lt_iff_of_le {x y : Binary64} (h : x ≤ y) : x < y ↔ y.sameNumber x = false := by
  obtain ⟨i, j, hx, hy, hle⟩ := le_iff.1 h
  simp only [lt_iff, sameNumber, related, hx, hy, Option.some.injEq, exists_and_left, exists_eq_left',
    beq_eq_false_iff_ne]
  omega

theorem sameNumber_comm (x y : Binary64) : x.sameNumber y = y.sameNumber x := by
  unfold sameNumber related
  cases x.position? <;> cases y.position? <;> simp [Bool.beq_comm]

theorem isFinite_of_le_of_le {l x h : Binary64} (hl : l.isFinite = true) (hh : h.isFinite = true)
    (hlx : l ≤ x) (hxh : x ≤ h) : x.isFinite = true := by
  obtain ⟨y, z, hy, hz, hyz⟩ := le_iff.1 hlx
  obtain ⟨z', w, hz', hw, hzw⟩ := le_iff.1 hxh
  rw [hz] at hz'
  cases hz'
  rw [position?_eq_units hl] at hy
  rw [position?_eq_units hh] at hw
  cases hy
  cases hw
  have := units_lt l
  have := units_lt h
  exact (isFinite_of_position? hz (by omega) (by omega)).1

end Barista.Binary64
