/-
Sums that rounding swallows.

A rate of less than half a gap is lost, and one of more than half a gap is
not. At exactly half a gap the tie goes to the even significand, so whether
the rate moves a number depends on the number: `tie_of_swallowed` says that
this is the only way in which a rate can move a number of the largest
magnitude and be swallowed by a smaller one.
-/
import Barista.Proofs.Binary64.Whole

namespace Barista.Binary64

variable {m z r : Int}

/-! ## In units -/

theorem le_gap_of_swallowed (hz : nearest (z + r) 1 = z) : 2 * r ≤ gap (z + r).natAbs := by
  have := (nearest_error (z + r)).2
  omega

/-- A rate that moves a number is at least half the gap there. -/
theorem gap_le_of_moved (hm : 0 ≤ m) (hgrid : OnGrid m) (hr : 0 < r)
    (hmove : nearest (m + r) 1 ≠ m) : (gap m.natAbs : Int) ≤ 2 * r := by
  have hdvd : (gap m.natAbs : Int) ∣ m := Int.natCast_dvd.2 hgrid
  have hle := nearest_mono_units (show m ≤ m + r by omega)
  rw [hgrid.nearest_eq] at hle
  have hgap := gap_mono (show m.natAbs ≤ (m + r).natAbs by omega)
  rcases Nat.lt_or_eq_of_le hgap with hlt | heq
  · -- The sum is past the first number of a wider grid, which is a gap away or more.
    obtain ⟨hbelow, habove, htwice⟩ := gap_lt_gap hlt
    have hstep : (gap m.natAbs : Int) ∣ (2 ^ 52 * gap (m + r).natAbs : Nat) - m := by
      refine Int.dvd_sub (Int.natCast_dvd_natCast.2 ?_) hdvd
      exact Nat.dvd_trans (gap_dvd_gap (by omega)) (Nat.dvd_mul_left _ _)
    have := Int.le_of_dvd (by omega) hstep
    omega
  · have hstep : (gap m.natAbs : Int) ∣ nearest (m + r) 1 - m :=
      Int.dvd_sub (heq ▸ gap_dvd_nearest _) hdvd
    have := Int.le_of_dvd (by omega) hstep
    have := (nearest_error (m + r)).1
    omega

/-- **Only a tie is swallowed below a number that moves.** -/
theorem tie_of_swallowed (hr : 0 < r) (hgrid : OnGrid m) (hlow : -m ≤ z) (hhigh : z < m)
    (hmove : nearest (m + r) 1 ≠ m) (hz : nearest (z + r) 1 = z) : 2 * r = gap m.natAbs := by
  have hsum : z + r ≤ m := by
    apply Int.le_of_not_gt
    intro h
    have := nearest_mono_units (Int.le_of_lt h)
    rw [hgrid.nearest_eq] at this
    omega
  have hswallowed := le_gap_of_swallowed hz
  have hgap := gap_mono (show (z + r).natAbs ≤ m.natAbs by omega)
  have := gap_le_of_moved (by omega) hgrid hr hmove
  omega

/-! ## In doubles -/

variable {x y : Binary64}

theorem sameNumber_add_iff (hx : x.isFinite = true) (hy : y.isFinite = true) :
    (x + y).sameNumber x = true ↔ nearest (x.units + y.units) 1 = x.units := by
  have hlt := units_lt x
  simp only [sameNumber, related, position?_add hx hy, position?_eq_units hx, beq_iff_eq]
  constructor
  · intro h
    have := eq_of_held_lt (h.symm ▸ hlt.1) (h.symm ▸ hlt.2)
    omega
  · intro h
    rw [h]
    exact held_of_lt hlt.1 hlt.2

theorem sameNumber_sub_iff (hx : x.isFinite = true) (hy : y.isFinite = true) :
    (x - y).sameNumber x = true ↔ nearest (x.units - y.units) 1 = x.units := by
  have h := sameNumber_add_iff hx (y := -y) (by rwa [isFinite_neg])
  rw [units_neg, ← Int.sub_eq_add_neg] at h
  exact h

end Barista.Binary64
