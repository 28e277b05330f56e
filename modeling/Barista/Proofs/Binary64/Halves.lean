/-
Halves among the doubles.

Up to `2^53` halves a number of halves is a double (`onGrid_mul_half`), so
sums of halves are exact (`Halves.add`), and so are products and quotients
that come to halves again. Times of a few seconds and half a second for a
portion of sugar are added in this way without any rounding, and giving them
to a tenth of a second takes nothing away (`Halves.tenths_eq`).
-/
import Barista.Proofs.Binary64.Bounds

namespace Barista.Binary64

def half : Nat := 2 ^ (unitPlaces - 1)

theorem two_mul_half : 2 * half = one := by
  have hplaces : unitPlaces - 1 + 1 = unitPlaces := rfl
  rw [one_eq, half, ← Nat.pow_succ', Nat.succ_eq_add_one, hplaces]

/-- The number is so many halves. -/
structure Halves (n : Nat) (x : Binary64) : Prop where
  finite : x.isFinite = true
  units_eq : x.units = (n * half : Nat)

theorem onGrid_mul_half {n : Nat} (h : n ≤ 2 ^ 53) : OnGrid ((n * half : Nat) : Int) := by
  unfold OnGrid half
  rw [Int.natAbs_natCast]
  generalize unitPlaces - 1 = k
  exact gap_dvd_mul h

namespace Halves

variable {a b n : Nat} {x y : Binary64}

theorem of_position? (h : n ≤ 2 ^ 53)
    (hx : x.position? = some (held (nearest (n * half : Nat) 1))) : Halves n x := by
  have hlt : n * half < limit := by
    refine Nat.lt_of_le_of_lt (Nat.mul_le_mul_left n ?_) (mul_one_lt_limit h)
    rw [← two_mul_half]
    omega
  obtain ⟨hfinite, hunits⟩ := (onGrid_mul_half h).exact (by omega) (by omega) hx
  exact ⟨hfinite, hunits⟩

theorem units_nonneg (hx : Halves n x) : 0 ≤ x.units := hx.units_eq ▸ Int.natCast_nonneg _

theorem ofNat (h : n ≤ 2 ^ 53) : Halves (2 * n) (.ofNat n) := by
  obtain ⟨hfinite, hunits⟩ := ofNat_spec h
  refine ⟨hfinite, ?_⟩
  rw [hunits, ← two_mul_half, Nat.mul_left_comm, Nat.mul_assoc]

theorem add (hx : Halves a x) (hy : Halves b y) (h : a + b ≤ 2 ^ 53) : Halves (a + b) (x + y) := by
  refine of_position? h ?_
  rw [position?_add hx.finite hy.finite, hx.units_eq, hy.units_eq, Nat.add_mul, Int.natCast_add]

theorem mul (hx : Halves a x) (hy : Halves b y) (hn : a * b = 2 * n) (h : n ≤ 2 ^ 53) :
    Halves n (x * y) := by
  have hproduct : x.units * y.units = (n * half : Nat) * one := by
    rw [hx.units_eq, hy.units_eq, ← two_mul_half, ← Int.natCast_mul, ← Int.natCast_mul,
      Nat.mul_mul_mul_comm, hn]
    ring_nf
  refine of_position? h ?_
  rw [position?_mul hx.finite hy.finite, hproduct, (onGrid_mul_half h).nearest_mul one_pos,
    (onGrid_mul_half h).nearest_eq]

theorem div (hx : Halves (n * b) x) (hy : Halves (2 * b) y) (hb : 0 < b) (h : n ≤ 2 ^ 53) :
    Halves n (x / y) := by
  have hunits : y.units = (b * one : Nat) := by
    rw [hy.units_eq, ← two_mul_half, Nat.mul_left_comm, Nat.mul_assoc]
  have hpos : 0 < b * one := Nat.mul_pos hb one_pos
  have hdividend : x.units * one = (n * half : Nat) * (b * one : Nat) := by
    rw [hx.units_eq, ← Int.natCast_mul, ← Int.natCast_mul]
    ring_nf
  refine of_position? h ?_
  rw [position?_div hx.finite hy.finite (hunits ▸ Int.natCast_pos.2 hpos), hdividend, hunits,
    Int.natAbs_natCast, (onGrid_mul_half h).nearest_mul hpos, (onGrid_mul_half h).nearest_eq]

theorem round (hx : Halves (2 * n) x) (h : 2 * n ≤ 2 ^ 53) : Halves (2 * n) x.round := by
  have hunits : x.units.natAbs = n * one := by
    rw [hx.units_eq, Int.natAbs_natCast, ← two_mul_half, Nat.mul_left_comm, Nat.mul_assoc]
  have hwhole : (2 * (n * one) + one) / (2 * one) * one = 2 * n * half := by
    rw [← Nat.mul_assoc, ← Nat.succ_mul, Nat.mul_div_mul_right _ _ one_pos, ← two_mul_half,
      show (2 * n + 1) / 2 = n by omega, Nat.mul_left_comm, Nat.mul_assoc]
  refine of_position? h ?_
  rw [position?_round hx.finite hx.units_nonneg, hunits, hwhole]

theorem mul_half (hx : Halves (2 * n) x) (h : n ≤ 2 ^ 53) : Halves n (x * 0.5) := by
  have hhalf : Halves 1 (0.5 : Binary64) := ⟨by decide +kernel, by decide +kernel⟩
  exact hx.mul hhalf (Nat.mul_one _) h

/-- A positive number of halves is one double. -/
theorem unique (hx : Halves n x) (hy : Halves n y) (hpos : 0 < n) : x = y := by
  have hunits : 0 < n * half := Nat.mul_pos hpos (Nat.two_pow_pos _)
  obtain ⟨u, v, rfl⟩ := exists_finite_of_pos hx.finite (hx.units_eq ▸ Int.natCast_pos.2 hunits)
  obtain ⟨w, r, rfl⟩ := exists_finite_of_pos hy.finite (hy.units_eq ▸ Int.natCast_pos.2 hunits)
  have heq : (u : Int) = w := hx.units_eq.trans hy.units_eq.symm
  obtain rfl := Int.natCast_inj.1 heq
  rfl

theorem ten : Halves 20 (10 : Binary64) := ofNat (n := 10) (by decide)

theorem mul_ten (hx : Halves n x) (h : 10 * n ≤ 2 ^ 53) :
    Halves (n * 10) (x * 10) ∧ Halves (n * 10) (x * 10).round := by
  have hwhole : Halves (2 * (5 * n)) (x * 10) := hx.mul ten (by omega) (by omega)
  have hround := hwhole.round (by omega)
  rw [show 2 * (5 * n) = n * 10 by omega] at hwhole hround
  exact ⟨hwhole, hround⟩

/-- **Halves are given to a tenth as they are.** -/
theorem tenths_eq (hx : Halves n x) (hpos : 0 < n) (h : 10 * n ≤ 2 ^ 53) :
    (x * 10).round / 10 = x :=
  ((hx.mul_ten h).2.div ten (by decide) (by omega)).unique hx hpos

theorem lt_iff (hx : Halves a x) (hy : Halves b y) : x < y ↔ a < b := by
  have hpos : 0 < half := Nat.two_pow_pos _
  rw [lt_iff_units hx.finite hy.finite, hx.units_eq, hy.units_eq, Int.ofNat_lt]
  exact Nat.mul_lt_mul_right hpos

theorem le_iff (hx : Halves a x) (hy : Halves b y) : x ≤ y ↔ a ≤ b := by
  have hpos : 0 < half := Nat.two_pow_pos _
  rw [le_iff_units hx.finite hy.finite, hx.units_eq, hy.units_eq, Int.ofNat_le]
  exact Nat.mul_le_mul_right_iff hpos

theorem value_eq (hx : Halves n x) : x.value = (n : ℚ) / 2 := by
  have hpos : (half : ℚ) ≠ 0 := by
    exact_mod_cast (Nat.two_pow_pos (unitPlaces - 1)).ne'
  rw [value, hx.units_eq, ← two_mul_half]
  push_cast
  rw [mul_comm (2 : ℚ), mul_comm (n : ℚ)]
  exact mul_div_mul_left _ _ hpos

end Halves

theorem Between.tenths {l h x : Binary64} {a b : Nat} (bounds : Between l h x) (hl : Halves a l)
    (hh : Halves b h) (ha : 0 < a) (hb : 10 * b ≤ 2 ^ 53) : Between l h ((x * 10).round / 10) := by
  have hab := (hl.le_iff hh).1 (Binary64.le_trans bounds.low bounds.high)
  have hunits : 0 < (10 : Binary64).units := by decide +kernel
  obtain ⟨hlow, hlow'⟩ := hl.mul_ten (by omega)
  obtain ⟨hhigh, hhigh'⟩ := hh.mul_ten hb
  have hmul := bounds.mul (.refl Halves.ten.finite) ⟨hl.units_nonneg, Int.le_of_lt hunits,
    hlow.finite, hhigh.finite⟩
  have hround := hmul.round ⟨hlow.units_nonneg, hlow'.finite, hhigh'.finite⟩
  have heq := hl.tenths_eq ha (by omega)
  have heq' := hh.tenths_eq (by omega) hb
  have hdiv := hround.div (d := 10) ⟨Halves.ten.finite, hunits, heq.symm ▸ hl.finite,
    heq'.symm ▸ hh.finite⟩
  rwa [heq, heq'] at hdiv

end Barista.Binary64
