/-
Whole numbers among the doubles.

A double is a multiple of its own gap (`OnGrid`), and what is one is its own
rounding. Whole numbers up to `2^53` are (`onGrid_mul_one`), so counts, and
the sums and differences of small counts, are exact (`ofNat_spec`,
`sub_whole`), and the floor of a number that is not too large is its whole
part (`floor_spec`).
-/
import Barista.Proofs.Binary64.Arithmetic
import Mathlib.Data.Rat.Floor

namespace Barista.Binary64

/-! ## The grid -/

/-- What a double can stand at: a multiple of its own gap. -/
def OnGrid (z : Int) : Prop := gap z.natAbs ∣ z.natAbs

theorem onGrid_units (x : Binary64) : OnGrid x.units := (representable_units x).2

theorem onGrid_nearest (z : Int) : OnGrid (nearest z 1) := by
  unfold OnGrid
  rw [natAbs_nearest]
  exact gap_roundUnits_dvd _ _

theorem OnGrid.neg {z : Int} (h : OnGrid z) : OnGrid (-z) := by
  unfold OnGrid at *
  rwa [Int.natAbs_neg]

theorem OnGrid.nearest_eq {z : Int} (h : OnGrid z) : nearest z 1 = z := nearest_of_dvd h

theorem onGrid_mul_gap (n : Nat) : OnGrid ((2 ^ 52 * gap n : Nat) : Int) := by
  unfold OnGrid
  rw [Int.natAbs_natCast]
  exact gap_dvd_mul (q := 2 ^ 52) (by decide)

/-- Rounding does not cross the first number of a gap. -/
theorem mul_gap_le_nearest {n : Nat} {z : Int} (h : ((2 ^ 52 * gap n : Nat) : Int) ≤ z) :
    ((2 ^ 52 * gap n : Nat) : Int) ≤ nearest z 1 :=
  (onGrid_mul_gap n).nearest_eq ▸ nearest_mono_units h

/-- From the first number of a gap on, doubles are multiples of it. -/
theorem OnGrid.gap_dvd {z : Int} (hz : OnGrid z) {n : Nat} (h : 2 ^ 52 * gap n ≤ z.natAbs) :
    (gap n : Int) ∣ z := by
  have hgap := gap_dvd_gap h
  rw [gap_mul_gap] at hgap
  exact Int.natCast_dvd.2 (Nat.dvd_trans hgap hz)

theorem one_eq : one = 2 ^ unitPlaces := by
  unfold one
  generalize unitPlaces = k
  rfl

theorem onGrid_mul_one {n : Nat} (h : n ≤ 2 ^ 53) : OnGrid ((n * one : Nat) : Int) := by
  unfold OnGrid
  rw [Int.natAbs_natCast, one_eq]
  generalize unitPlaces = k
  exact gap_dvd_mul h

theorem OnGrid.two_mul {z : Int} (h : OnGrid z) : OnGrid (2 * z) := by
  unfold OnGrid at *
  rw [Int.natAbs_mul]
  generalize z.natAbs = n at *
  rcases Nat.eq_zero_or_pos n with rfl | hn
  · simp
  refine Nat.dvd_trans ?_ (Nat.mul_dvd_mul_left 2 h)
  rw [gap_eq, gap_eq, show (2 : Int).natAbs = 2 from rfl, Nat.log2_two_mul (by omega),
    ← Nat.pow_succ']
  exact Nat.pow_dvd_pow 2 (by omega)

theorem OnGrid.nearest_mul {z : Int} (h : OnGrid z) {d : Nat} (hd : 0 < d) :
    nearest (z * d) d = z := by
  have hle : nearest (z * d) d ≤ nearest z 1 := nearest_mono hd Nat.one_pos (by simp)
  have hge : nearest z 1 ≤ nearest (z * d) d := nearest_mono Nat.one_pos hd (by simp)
  rw [h.nearest_eq] at hle hge
  omega

theorem units_one : (1 : Binary64).units = one := by decide +kernel

theorem units_two : (2 : Binary64).units = 2 * one := by decide +kernel

theorem units_mul_two {x : Binary64} (h : (x * 2).isFinite = true) :
    (x * 2).units = 2 * x.units := by
  rw [units_mul h, units_two, ← Int.mul_assoc, Int.mul_comm x.units 2]
  exact (onGrid_units x).two_mul.nearest_mul one_pos

/-! ## Whole numbers -/

theorem mul_one_lt_limit {n : Nat} (h : n ≤ 2 ^ 53) : n * one < limit := by
  have hlt : 2 ^ 53 * one < limit := by
    unfold limit one
    generalize unitPlaces = k
    rw [Nat.pow_eq, Nat.pow_eq, ← Nat.pow_add]
    exact Nat.pow_lt_pow_right (by decide) (by omega)
  exact Nat.lt_of_le_of_lt (Nat.mul_le_mul_right one h) hlt

theorem OnGrid.exact {x : Binary64} {z : Int} (h : OnGrid z) (hlo : -(limit : Int) < z)
    (hhi : z < limit) (hx : x.position? = some (held (nearest z 1))) :
    x.isFinite = true ∧ x.units = z := by
  rw [h.nearest_eq, held_of_lt hlo hhi] at hx
  exact isFinite_of_position? hx hlo hhi

/-- What stands where a whole number up to `2^53` is rounded to is that number. -/
theorem whole_of_position? {x : Binary64} {n : Nat} (h : n ≤ 2 ^ 53)
    (hx : x.position? = some (held (nearest (n * one : Nat) 1))) :
    x.isFinite = true ∧ x.units = (n * one : Nat) := by
  have hlt := mul_one_lt_limit h
  exact (onGrid_mul_one h).exact (by omega) (by omega) hx

theorem ofNat_spec {n : Nat} (h : n ≤ 2 ^ 53) :
    (ofNat n).isFinite = true ∧ (ofNat n).units = (n * one : Nat) :=
  whole_of_position? h (position?_ofWhole false n)

theorem one_dvd_roundUnits (n : Nat) : one ∣ roundUnits (n * one) 1 := by
  rcases Nat.lt_or_ge (n * one).log2 (52 + unitPlaces) with h | h
  · have hgap : gap (n * one) ∣ 2 ^ unitPlaces := by
      rw [gap_eq]
      exact Nat.pow_dvd_pow 2 (by omega)
    rw [← one_eq] at hgap
    have := roundUnits_mul_of_dvd Nat.one_pos (Nat.dvd_trans hgap (Nat.dvd_mul_left one n))
    rw [Nat.mul_one] at this
    rw [this]
    exact Nat.dvd_mul_left one n
  · have hgap : 2 ^ unitPlaces ∣ gap (n * one / 1) := by
      rw [Nat.div_one, gap_eq]
      exact Nat.pow_dvd_pow 2 (by omega)
    rw [← one_eq] at hgap
    exact Nat.dvd_trans hgap (gap_dvd_roundUnits _ _)

theorem ceil_finite (s : Bool) (n : Nat) (v : Representable n) :
    (finite s n v).ceil = ofWhole s (if s then n / one else (n + (one - 1)) / one) := rfl

/-- The ceiling of a number that is not negative is a whole number and not below it. -/
theorem ceil_spec {x : Binary64} (hx : 0 ≤ x.units) (hf : x.ceil.isFinite = true) :
    ∃ k : Nat, x.ceil.units = (k * one : Nat) ∧ x.units ≤ (k * one : Nat) := by
  cases x with
  | nan => cases hf
  | infinity s => cases hf
  | finite s n v =>
    rw [ceil_finite] at hf ⊢
    have hu := units_of_position? hf (position?_ofWhole _ _)
    rw [nearest_signed] at hu
    cases s with
    | true =>
      obtain rfl := eq_zero_of_nonneg hx
      refine ⟨0, ?_, by simp [units]⟩
      rw [hu]
      simp
    | false =>
      simp only [Bool.false_eq_true, if_false] at hu ⊢
      obtain ⟨k, hk⟩ := one_dvd_roundUnits ((n + (one - 1)) / one)
      have hone := one_pos
      have hceil : n ≤ (n + (one - 1)) / one * one := by
        have := Nat.div_add_mod (n + (one - 1)) one
        have := Nat.mod_lt (n + (one - 1)) hone
        rw [Nat.mul_comm]
        omega
      -- Rounding the whole number above does not go below the double it is above.
      have hround : n ≤ roundUnits ((n + (one - 1)) / one * one) 1 := by
        calc n = roundUnits (n * 1) 1 := (roundUnits_mul_of_dvd Nat.one_pos v.2).symm
          _ ≤ _ := roundUnits_mono Nat.one_pos Nat.one_pos (by omega)
      refine ⟨k, ?_, ?_⟩
      · rw [hu, hk, Nat.mul_comm k]
        rfl
      · rw [Nat.mul_comm, ← hk]
        exact Int.ofNat_le.2 hround

theorem wholePart_eq {x : Binary64} (hx : 0 ≤ x.units) : x.wholePart = x.units.toNat / one := by
  cases x with
  | nan => simp [wholePart, units]
  | infinity s => simp [wholePart, units]
  | finite s n v =>
    cases s with
    | false => rfl
    | true =>
      obtain rfl := eq_zero_of_nonneg hx
      simp [wholePart, units]

variable {x y : Binary64}

theorem floor_finite (s : Bool) (n : Nat) (v : Representable n) :
    (finite s n v).floor = ofWhole s (if s then (n + (one - 1)) / one else n / one) := rfl

theorem floor_spec (hx : x.isFinite = true) (h0 : 0 ≤ x.units)
    (hsmall : x.units.natAbs / one ≤ 2 ^ 53) :
    x.floor.isFinite = true ∧ x.floor.units = (x.units.natAbs / one * one : Nat) := by
  cases x with
  | nan => cases hx
  | infinity s => cases hx
  | finite s n v =>
    have hfloor : (finite s n v).floor = ofWhole s (n / one) := by
      rw [floor_finite]
      cases s with
      | false => rfl
      | true =>
        obtain rfl := eq_zero_of_nonneg h0
        have hone := Binary64.one_pos
        have hzero : (0 + (one - 1)) / one = 0 := Nat.div_eq_of_lt (by omega)
        rw [if_pos rfl, hzero, Nat.zero_div]
    have hunits : (finite s n v).units.natAbs = n := natAbs_signed s n
    rw [hunits] at hsmall ⊢
    have hpos := position?_ofWhole s (n / one)
    have hsign : signed s (n / one * one) = (n / one * one : Nat) := by
      cases s with
      | false => rfl
      | true =>
        obtain rfl := eq_zero_of_nonneg h0
        simp
    rw [hsign] at hpos
    rw [hfloor]
    exact whole_of_position? hsmall hpos

/-- Rounding to a whole number, a half up, of a number that is not negative. -/
theorem position?_round (hx : x.isFinite = true) (h0 : 0 ≤ x.units) : x.round.position? =
    some (held (nearest ((2 * x.units.natAbs + one) / (2 * one) * one : Nat) 1)) := by
  cases x with
  | nan => cases hx
  | infinity s => cases hx
  | finite s n v =>
    show (ofWhole s ((2 * n + one) / (2 * one))).position? = _
    rw [position?_ofWhole]
    cases s with
    | false => rfl
    | true =>
      obtain rfl := eq_zero_of_nonneg h0
      have hone := Binary64.one_pos
      have hzero : (2 * 0 + one) / (2 * one) = 0 := Nat.div_eq_of_lt (by omega)
      simp only [units, signed_zero, Int.natAbs_zero, hzero, Nat.zero_mul, Int.natCast_zero]

theorem sub_whole {a b : Nat} (hx : x.isFinite = true) (hy : y.isFinite = true)
    (ha : x.units = (a * one : Nat)) (hb : y.units = (b * one : Nat)) (hle : b ≤ a)
    (hsmall : a ≤ 2 ^ 53) :
    (x - y).isFinite = true ∧ (x - y).units = ((a - b) * one : Nat) := by
  have hpos := position?_sub hx hy
  have hdiff : x.units - y.units = ((a - b) * one : Nat) := by
    have := Nat.mul_le_mul_right one hle
    rw [ha, hb, Nat.sub_mul]
    omega
  rw [hdiff] at hpos
  exact whole_of_position? (by omega) hpos

theorem floor_value (h0 : 0 ≤ x.units) : ⌊x.value⌋ = (x.units.natAbs / one : Nat) := by
  rw [value, Rat.floor_intCast_div_natCast, Int.natCast_ediv, Int.natAbs_of_nonneg h0]

end Barista.Binary64
