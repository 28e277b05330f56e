/-
Adding one rate again and again, in doubles.

Where the rate moves a number at all, it moves it by two thirds of itself at
least, as long as the number is on the grid of the doubles around the sum
(`step_of_dvd`). Only where the sum crosses into a wider grid can a step be
shorter, down to half the rate, and the step after that is not
(`two_steps`). So `n` steps that all move cover seven twelfths of `n` rates
(`climb`), which is what a bound of two steps a rate rests on.
-/
import Barista.Proofs.Binary64.Whole

namespace Barista.Binary64

variable {z r : Int}

theorem le_step (hr : 0 < r) (hz : OnGrid z) : z ≤ nearest (z + r) 1 := by
  have := nearest_mono_units (show z ≤ z + r by omega)
  rwa [hz.nearest_eq] at this

/-- On the grid of the sum, a step that moves is at least two thirds of the rate. -/
theorem step_of_dvd (hr : 0 < r) (hz : OnGrid z) (hmove : nearest (z + r) 1 ≠ z)
    (hd : (gap (z + r).natAbs : Int) ∣ z) : 2 * r ≤ 3 * (nearest (z + r) 1 - z) := by
  have hle := le_step hr hz
  have herr := (nearest_error (z + r)).2
  have hg : (gap (z + r).natAbs : Int) ≤ nearest (z + r) 1 - z :=
    Int.le_of_dvd (by omega) (Int.dvd_sub (gap_dvd_nearest _) hd)
  omega

/-- Off the grid of the sum, a step crosses into a wider grid: it is at least half a gap of that
grid. -/
theorem step_of_not_dvd (hr : 0 < r) (hz : OnGrid z) (hd : ¬ (gap (z + r).natAbs : Int) ∣ z) :
    (gap (z + r).natAbs : Int) ≤ 2 * (nearest (z + r) 1 - z) := by
  have hgz : (gap z.natAbs : Int) ∣ z := Int.natCast_dvd.2 hz
  have hlt : z.natAbs < (z + r).natAbs := by
    apply Nat.lt_of_not_le
    intro h
    exact hd (Int.dvd_trans (Int.natCast_dvd_natCast.2 (gap_dvd_gap h)) hgz)
  have hgap : gap z.natAbs < gap (z + r).natAbs := by
    refine Nat.lt_of_le_of_ne (gap_mono (Nat.le_of_lt hlt)) fun h => hd ?_
    rw [← h]
    exact hgz
  obtain ⟨hbelow, habove, htwice⟩ := gap_lt_gap hgap
  -- The sum is positive, and rounding it stays at or above the wider grid's first number.
  have hw : ((2 ^ 52 * gap (z + r).natAbs : Nat) : Int) ≤ nearest (z + r) 1 :=
    mul_gap_le_nearest (by omega)
  rcases Nat.lt_or_ge (2 * gap z.natAbs) (gap (z + r).natAbs) with h2 | h2
  · -- Two binades or more below: the distance to the wider grid is long.
    have h4 : 4 * gap z.natAbs ≤ gap (z + r).natAbs := by
      rw [gap_eq, gap_eq] at h2 ⊢
      rw [← Nat.pow_succ', Nat.pow_lt_pow_iff_right (by decide)] at h2
      rw [show 4 = 2 ^ 2 from rfl, ← Nat.pow_add]
      exact Nat.pow_le_pow_right (by decide) (by omega)
    have := lt_mul_gap z.natAbs
    omega
  · -- One binade below: the wider grid's first number is a multiple of the gap at `z`.
    have heq : gap (z + r).natAbs = 2 * gap z.natAbs := by omega
    have hdvd : (gap z.natAbs : Int) ∣ ((2 ^ 52 * gap (z + r).natAbs : Nat) : Int) - z := by
      refine Int.dvd_sub (Int.natCast_dvd_natCast.2 ?_) hgz
      exact Nat.dvd_trans (heq ▸ Nat.dvd_mul_left _ 2) (Nat.dvd_mul_left _ _)
    have := Int.le_of_dvd (by omega) hdvd
    omega

theorem half_step (hr : 0 < r) (hz : OnGrid z) (hmove : nearest (z + r) 1 ≠ z) :
    r ≤ 2 * (nearest (z + r) 1 - z) := by
  by_cases hd : (gap (z + r).natAbs : Int) ∣ z
  · have := step_of_dvd hr hz hmove hd
    omega
  · have := step_of_not_dvd hr hz hd
    have := (nearest_error (z + r)).2
    omega

/-- **Two steps that move cover seven sixths of the rate.** A short step crosses into a grid whose
gap is between two and four thirds of the rate; there is one such grid, and the step after it is
on it. -/
theorem two_steps {z' z'' : Int} (hr : 0 < r) (hz : OnGrid z) (h₁ : z' = nearest (z + r) 1)
    (h₂ : z'' = nearest (z' + r) 1) (hmove₁ : z' ≠ z) (hmove₂ : z'' ≠ z') :
    7 * r ≤ 6 * (z'' - z) := by
  have hz' : OnGrid z' := h₁ ▸ onGrid_nearest _
  have half₁ := half_step hr hz (h₁ ▸ hmove₁)
  have half₂ := half_step hr hz' (h₂ ▸ hmove₂)
  rw [← h₁] at half₁
  rw [← h₂] at half₂
  by_cases hd₁ : (gap (z + r).natAbs : Int) ∣ z
  · have := step_of_dvd hr hz (h₁ ▸ hmove₁) hd₁
    rw [← h₁] at this
    omega
  by_cases hd₂ : (gap (z' + r).natAbs : Int) ∣ z'
  · have := step_of_dvd hr hz' (h₂ ▸ hmove₂) hd₂
    rw [← h₂] at this
    omega
  have short₁ := step_of_not_dvd hr hz hd₁
  have short₂ := step_of_not_dvd hr hz' hd₂
  have herr₁ := (nearest_error (z + r)).2
  have herr₂ := (nearest_error (z' + r)).2
  rw [← h₁] at short₁ herr₁
  rw [← h₂] at short₂ herr₂
  rcases Nat.lt_trichotomy (gap (z + r).natAbs) (gap (z' + r).natAbs) with h | h | h
  · have := (gap_lt_gap h).2.2
    omega
  · exact absurd (h ▸ h₁ ▸ gap_dvd_nearest (z + r)) hd₂
  · have := (gap_lt_gap h).2.2
    omega

/-- **Steps that all move cover the distance.** Pairs of them cover seven sixths of the rate, and
an odd one half of it. -/
theorem climb {z : Nat → Int} (hr : 0 < r) (h0 : OnGrid (z 0)) :
    ∀ {n : Nat}, (∀ i < n, z (i + 1) = nearest (z i + r) 1 ∧ z (i + 1) ≠ z i) →
      7 * r * (n / 2 : Nat) + 3 * r * (n % 2 : Nat) ≤ 6 * (z n - z 0)
  | 0, _ => by simp
  | 1, h => by
    obtain ⟨he, hmove⟩ := h 0 (by omega)
    have := half_step hr h0 (he ▸ hmove)
    rw [← he] at this
    simp only [Nat.zero_add] at this
    simp
    omega
  | n + 2, h => by
    have ih := climb hr h0 (n := n) fun i hi => h i (by omega)
    have hgrid : OnGrid (z n) := by
      cases n with
      | zero => exact h0
      | succ n => exact (h n (by omega)).1 ▸ onGrid_nearest _
    obtain ⟨he₁, hmove₁⟩ := h n (by omega)
    obtain ⟨he₂, hmove₂⟩ := h (n + 1) (by omega)
    have : 7 * r ≤ 6 * (z (n + 2) - z n) := two_steps hr hgrid he₁ he₂ hmove₁ hmove₂
    rw [show (n + 2) / 2 = n / 2 + 1 by omega, show (n + 2) % 2 = n % 2 by omega, Int.natCast_add,
      Int.mul_add]
    omega

end Barista.Binary64
