/-
Random tests, test by test.

What the `i`-th test of a tester says is a function of its stream, its rate and
`i` (`Tester.outcome`): a test takes one draw whatever it says, or none at all at
the rate one. So testers with one stream see the same draws at the same tests,
and where the lower rate passes, the higher one does (`Tester.outcome_mono`). A
rate is a number from zero up to one, and how many draws pass grows with it
(`passing_mono`). Nothing here depends on which numbers the stream has.
-/
import Barista.Random.Tester
import Barista.Proofs.Binary64.Whole

namespace Barista.Random

open Binary64

/-! ## Rates -/

/-- Rates are finite, and their values are probabilities. -/
theorem rate_iff {rate : Binary64} :
    0 ≤ rate ∧ rate ≤ 1 ↔ rate.isFinite = true ∧ 0 ≤ rate.value ∧ rate.value ≤ 1 := by
  have hone : (0 : ℚ) < one := Nat.cast_pos.2 one_pos
  have hunits : rate.isFinite = true →
      (0 ≤ rate ∧ rate ≤ 1 ↔ 0 ≤ rate.value ∧ rate.value ≤ 1) := by
    intro hfinite
    rw [le_iff_units isFinite_zero hfinite, le_iff_units hfinite (by decide +kernel), units_zero,
      units_one, value, le_div_iff₀ hone, zero_mul, div_le_one hone]
    norm_cast
  constructor
  · rintro ⟨hlow, hhigh⟩
    have hfinite := isFinite_of_le_of_le isFinite_zero (by decide +kernel) hlow hhigh
    exact ⟨hfinite, (hunits hfinite).1 ⟨hlow, hhigh⟩⟩
  · rintro ⟨hfinite, hvalue⟩
    exact (hunits hfinite).2 hvalue

theorem eq_one_of_le {rate : Binary64} (h : 1 ≤ rate) (h' : rate ≤ 1) : rate = 1 := by
  have hone : (1 : Binary64).isFinite = true := by decide +kernel
  have hfinite := isFinite_of_le_of_le hone hone h h'
  have hunits : rate.units = (1 : Binary64).units :=
    Int.le_antisymm ((le_iff_units hfinite hone).1 h') ((le_iff_units hone hfinite).1 h)
  have hpos : 0 < (1 : Binary64).units := by
    rw [units_one]
    exact Int.natCast_pos.2 one_pos
  obtain ⟨n, v, hn⟩ := exists_finite_of_pos hone hpos
  obtain ⟨k, w, rfl⟩ := exists_finite_of_pos hfinite (hunits ▸ hpos)
  rw [hn] at hunits ⊢
  obtain rfl : k = n := Int.ofNat.inj hunits
  rfl

theorem passing_eq {rate : Binary64} (hfinite : rate.isFinite = true) :
    passing rate = rate.units.natAbs * UInt64.size / one := by
  cases rate with
  | nan => cases hfinite
  | infinity s => cases hfinite
  | finite s n v => rw [passing, units, natAbs_signed]

theorem passing_mono {p q : Binary64} (hp : 0 ≤ p) (h : p ≤ q) (hq : q ≤ 1) :
    passing p ≤ passing q := by
  obtain ⟨pfinite, -⟩ := rate_iff.1 ⟨hp, Binary64.le_trans h hq⟩
  obtain ⟨qfinite, -⟩ := rate_iff.1 ⟨Binary64.le_trans hp h, hq⟩
  rw [le_iff_units isFinite_zero pfinite, units_zero] at hp
  rw [le_iff_units pfinite qfinite] at h
  rw [passing_eq pfinite, passing_eq qfinite]
  exact Nat.div_le_div_right (Nat.mul_le_mul_right _ (by omega))

theorem passing_zero (negative : Bool) : passing (zero negative) = 0 := by
  rw [zero, passing, Nat.zero_mul, Nat.zero_div]

/-! ## Tests -/

namespace Tester

variable (t : Tester) {draws : Nat → UInt64}

theorem ofDraws_eq_ok {rate : Binary64} (hlow : 0 ≤ rate) (hhigh : rate ≤ 1) :
    ofDraws draws rate = .ok ⟨draws, rate, 0⟩ := if_pos ⟨hlow, hhigh⟩

/-- Just what is no probability is refused as a rate. -/
theorem ofDraws_eq_error_iff {rate : Binary64} :
    ofDraws draws rate = .error (.invalidParameter "pass rate" rate) ↔
      ¬ (rate.isFinite = true ∧ 0 ≤ rate.value ∧ rate.value ≤ 1) := by
  rw [← rate_iff, ofDraws]
  split
  · next h => simp [h]
  · next h => simp [h]

/-- The tester after a number of tests. -/
def after (count : Nat) : Tester :=
  if t.passRate = 1 then t else { t with drawn := t.drawn + count }

/-- What the test says that follows on a number of others. -/
def outcome (index : Nat) : Bool :=
  t.passRate = 1 || passes t.passRate (t.draws (t.drawn + index))

@[simp] theorem after_zero : t.after 0 = t := by
  unfold after
  split <;> rfl

theorem test_after (index : Nat) : (t.after index).test = (t.outcome index, t.after (index + 1)) := by
  unfold test outcome after
  by_cases h : t.passRate = 1
  · simp [h]
  · simp [h, Nat.add_assoc]

theorem outcomes_after (count index : Nat) :
    outcomes count (t.after index) = (List.range count).map fun i => t.outcome (index + i) := by
  induction count generalizing index with
  | zero => rfl
  | succ count ih =>
    rw [outcomes, test_after, List.range_succ_eq_map, List.map_cons, List.map_map]
    dsimp only
    rw [ih]
    simp only [Function.comp_def, Nat.succ_eq_add_one, Nat.add_zero, Nat.add_assoc, Nat.add_comm 1]

theorem outcomes_eq (count : Nat) : outcomes count t = (List.range count).map t.outcome := by
  simpa using t.outcomes_after count 0

/-- **What passes at a rate passes at a higher one**, as both testers see the same draw. -/
theorem outcome_mono {p q : Binary64} (hp : 0 ≤ p) (h : p ≤ q) (hq : q ≤ 1)
    {drawn index : Nat} (hpassed : outcome ⟨draws, p, drawn⟩ index = true) :
    outcome ⟨draws, q, drawn⟩ index = true := by
  simp only [outcome, passes, Bool.or_eq_true, decide_eq_true_eq] at hpassed ⊢
  rcases hpassed with rfl | hdraw
  · exact .inl (eq_one_of_le h hq)
  · exact .inr (Nat.lt_of_lt_of_le hdraw (passing_mono hp h hq))

theorem outcome_one (draws : Nat → UInt64) (drawn index : Nat) :
    outcome ⟨draws, 1, drawn⟩ index = true := by
  simp [outcome]

theorem outcome_zero (draws : Nat → UInt64) (negative : Bool) (drawn index : Nat) :
    outcome ⟨draws, zero negative, drawn⟩ index = false := by
  have hone : zero negative ≠ 1 := by cases negative <;> decide +kernel
  simp [outcome, passes, passing_zero, hone]

end Tester

end Barista.Random
