/-
How the distance to a goal shrinks, in doubles.

The distance is rounded on a grid of its own, which is wider than that of the
numbers where these are small beside the goal, so a step that moves a number
may leave the rounded distance where it was. A rate of more than one and a half
gaps at the distance does not (`distance_shrinks`): the step could only be too
short for it on a grid that is wider than the distance's, and there the numbers
and the goal are on that grid as well, so that the distances are exact.
-/
import Barista.Proofs.Binary64.Climb

namespace Barista.Binary64

/-! ## In units -/

theorem sub_le_gap_of_nearest_eq {z z' : Int} (hnonneg : 0 ≤ z') (hle : z' ≤ z)
    (heq : nearest z' 1 = nearest z 1) : z - z' ≤ gap z.natAbs := by
  have hgap := gap_mono (show z'.natAbs ≤ z.natAbs by omega)
  have herr := (nearest_error z).2
  have herr' := (nearest_error z').1
  omega

section

variable {t goal r : Int}

/-- **A rate of more than one and a half gaps at the distance makes the rounded distance smaller.** -/
theorem distance_shrinks (hr : 0 < r) (ht : OnGrid t) (hgoal : OnGrid goal) (hbelow : t < goal)
    (hmove : nearest (t + r) 1 ≠ t) (hrate : 3 * (gap (goal - t).natAbs : Int) < 2 * r) :
    nearest (goal - nearest (t + r) 1) 1 < nearest (goal - t) 1 := by
  have hhalf := half_step hr ht hmove
  have hdvd := gap_dvd_nearest (t + r)
  have herr := (nearest_error (t + r)).2
  have hreach := fun n => mul_gap_le_nearest (n := n) (z := t + r)
  have hnext := onGrid_nearest (t + r)
  generalize nearest (t + r) 1 = next at *
  have hle := nearest_mono_units (show goal - next ≤ goal - t by omega)
  refine lt_of_le_of_ne hle fun heq => ?_
  have hbefore : next < goal := by
    by_contra hpast
    have hpos : 0 < nearest (goal - t) 1 := nearest_pos (by omega)
    have hnonpos : nearest (goal - next) 1 ≤ 0 := nearest_nonpos (by omega)
    omega
  have hshort := sub_le_gap_of_nearest_eq (by omega) (by omega) heq
  -- The step is so much shorter than the rate that the sum is on a wider grid.
  have hwider : gap (goal - t).natAbs < gap (t + r).natAbs := by omega
  obtain ⟨hdistance, hsum, -⟩ := gap_lt_gap hwider
  rcases Int.lt_or_le (t + r) 0 with hneg | hnonneg
  · -- Both ends of the step are on that grid.
    have hgap := Int.le_of_dvd (by omega) (Int.dvd_sub hdvd (ht.gap_dvd (by omega)))
    omega
  · -- The goal is on that grid as well, and the distance that is left is exact.
    have hfar := hreach (t + r).natAbs (by omega)
    have hleft : ((gap (t + r).natAbs : Nat) : Int) ∣ goal - next :=
      Int.dvd_sub (hgoal.gap_dvd (by omega)) (hnext.gap_dvd (by omega))
    have hexact : OnGrid (goal - next) :=
      Nat.dvd_trans (gap_dvd_gap (by omega)) (Int.natCast_dvd.1 hleft)
    have herr' := (nearest_error (goal - t)).2
    rw [← heq, hexact.nearest_eq] at herr'
    have hgap := gap_pos (goal - t).natAbs
    omega

end

/-! ## In doubles -/

variable {x y goal start rate : Binary64}

theorem sub_le_sub (fgoal : goal.isFinite = true) (fx : x.isFinite = true) (fy : y.isFinite = true)
    (hle : x ≤ y) : goal - y ≤ goal - x := by
  rw [le_iff_units fx fy] at hle
  exact le_iff.2 ⟨_, _, position?_sub fgoal fy, position?_sub fgoal fx,
    held_mono (nearest_mono_units (by omega))⟩

theorem sub_nonneg (fgoal : goal.isFinite = true) (fx : x.isFinite = true) (hle : x ≤ goal) :
    0 ≤ goal - x := by
  rw [le_iff_units fx fgoal] at hle
  refine le_iff.2 ⟨_, _, position?_eq_units isFinite_zero, position?_sub fgoal fx, ?_⟩
  rw [units_zero]
  exact held_nonneg (nearest_nonneg (by omega) 1)

/-- **The distance to a goal becomes smaller** with every step that moves, if the distance from the
start is finite and the rate is more than one and a half gaps there. -/
theorem sub_add_lt_sub (fgoal : goal.isFinite = true) (fstart : start.isFinite = true)
    (hdistance : (goal - start).isFinite = true)
    (hrate : 3 * (gap (goal.units - start.units).natAbs : Int) < 2 * rate.units)
    (hfrom : start ≤ x) (hbelow : x < goal) (hmove : x < x + rate)
    (fnext : (x + rate).isFinite = true) : goal - (x + rate) < goal - x := by
  obtain ⟨fx, -⟩ := isFinite_of_add fnext
  have fdistance : (goal - x).isFinite = true :=
    isFinite_of_le_of_le isFinite_zero hdistance (sub_nonneg fgoal fx (Binary64.le_of_lt hbelow))
      (sub_le_sub fgoal fstart fx hfrom)
  rw [le_iff_units fstart fx] at hfrom
  rw [lt_iff_units fx fgoal] at hbelow
  rw [lt_iff_units fx fnext, units_add fnext] at hmove
  have hgap : gap (goal.units - x.units).natAbs ≤ gap (goal.units - start.units).natAbs :=
    gap_mono (by omega)
  have hpos := gap_pos (goal.units - start.units).natAbs
  have hshrinks := distance_shrinks (by omega) (onGrid_units x) (onGrid_units goal) hbelow (by omega)
    (show 3 * (gap (goal.units - x.units).natAbs : Int) < 2 * rate.units by omega)
  have hunits := units_lt (goal - x)
  rw [units_sub fdistance] at hunits
  refine lt_iff.2 ⟨_, _, position?_sub fgoal fnext, position?_sub fgoal fx, ?_⟩
  rw [units_add fnext]
  exact held_lt hshrinks hunits.1 hunits.2

end Barista.Binary64
