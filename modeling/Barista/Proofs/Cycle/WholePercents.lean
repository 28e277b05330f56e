/-
Cleaning whole percents, in closed form.

On whole numbers below `2^53` every difference of the loop is exact, so the
place after `i` turns is known: `waste - i * rate` percent, and zero from there
on, where the last turn is put right unless the rate divides the waste. No
whole rate is swallowed, so the loop is judged, and the one run that there is
goes through these places (`Run.of_places`).
-/
import Barista.Proofs.Binary64.Integers
import Barista.Proofs.Cycle.Cleaning

namespace Barista

open Binary64 CyclicProcess

/-- Cleaning on whole percents, by one at least; both numbers are below `2^53`. -/
structure WholePercents where
  waste : Nat
  rate : Nat
  waste_small : waste < 2 ^ 53
  rate_pos : 1 ≤ rate
  rate_small : rate < 2 ^ 53

namespace WholePercents

variable (w : WholePercents) {i : Nat}

def cleaning : TankCleaning := ⟨.ofNat w.waste, .ofNat w.rate⟩

/-- The percents after so many turns; nothing is left once they would be negative. -/
def percents (i : Nat) : Nat := w.waste - i * w.rate

def place (i : Nat) : Config Unit Binary64 := ⟨(), .ofNat (w.percents i)⟩

def turns : Nat := ⌈(w.waste : ℚ) / w.rate⌉₊

theorem small : w.waste < 2 ^ 53 ∧ 1 ≤ w.rate ∧ w.rate < 2 ^ 53 :=
  ⟨w.waste_small, w.rate_pos, w.rate_small⟩

theorem percents_zero : w.percents 0 = w.waste := by simp [percents]

theorem percents_succ (i : Nat) : w.percents (i + 1) = w.percents i - w.rate := by
  rw [percents, percents, Nat.succ_mul, Nat.sub_add_eq]

theorem percents_le (i : Nat) : w.percents i ≤ w.waste := Nat.sub_le _ _

theorem lt_turns_iff : i < w.turns ↔ 0 < w.percents i := by
  rw [turns, Nat.lt_ceil, lt_div_iff₀ (by exact_mod_cast w.rate_pos), percents, Nat.sub_pos_iff_lt]
  norm_cast

theorem percents_turns : w.percents w.turns = 0 :=
  Nat.eq_zero_of_not_pos (mt w.lt_turns_iff.2 (Nat.lt_irrefl _))

theorem origin_eq : w.cleaning.process.origin = w.place 0 := by
  rw [place, percents_zero]
  rfl

/-! ### The loop is judged -/

theorem abs_waste : (Binary64.ofNat w.waste).abs = .ofNat w.waste := by
  have := w.small
  rw [← ofInt_natCast, ofInt_abs (by omega), Int.natAbs_natCast]

theorem accepted : w.cleaning.checkParameters = .ok () := by
  have := w.small
  have fwaste := (ofNat_spec (n := w.waste) (by omega)).1
  have frate := (ofNat_spec (n := w.rate) (by omega)).1
  have hpos : 0 < Binary64.ofNat w.rate := by
    rw [← ofInt_natCast, ofInt_pos (by omega)]
    omega
  have hmoves : (Binary64.ofNat w.waste + .ofNat w.rate).sameNumber (.ofNat w.waste) = false := by
    rw [← ofInt_natCast, ← ofInt_natCast]
    exact sameNumber_ofInt_add (by omega) (by omega) (by omega) (by omega)
  refine TankCleaning.checkParameters_eq_ok.2 ⟨fwaste, ⟨frate, hpos⟩, ?_⟩
  simp only [cleaning, abs_waste]
  exact hmoves

theorem exists_bound : ∃ n, w.cleaning.process.iterationBound = some n := by
  have := w.small
  have hone : 1 ≤ Binary64.ofNat w.rate := by
    rw [← ofInt_natCast, one_le_ofInt (by omega)]
    omega
  have hsmall : Binary64.ofNat w.waste ≤ .ofNat (2 ^ 53) := by
    rw [← ofInt_natCast, ← ofInt_natCast, ofInt_le_ofInt (by omega) (by simp)]
    omega
  exact Rate.exists_bound (ofNat_spec (by omega)).1 hsmall (ofNat_spec (by omega)).1 hone

theorem not_stalls : ¬ w.cleaning.Stalls := by
  intro hs
  have := w.small
  have htie := TankCleaning.tie_of_stalls w.accepted hs
  have ewaste := (ofNat_spec (n := w.waste) (by omega)).2
  have erate := (ofNat_spec (n := w.rate) (by omega)).2
  simp only [cleaning, abs_waste] at htie
  rw [ewaste, erate, Int.natAbs_natCast, Int.natCast_mul] at htie
  exact (gap_lt_two_mul w.waste_small (by omega)).ne' htie

theorem exists_analysis : ∃ a, w.cleaning.process.analyze = .ok a := by
  obtain ⟨n, hb⟩ := w.exists_bound
  exact (TankCleaning.climbs w.accepted hb w.not_stalls).analyze_ok w.accepted

/-! ### The run -/

theorem goesOn_place : w.cleaning.process.goesOn (w.place i) = true ↔ i < w.turns := by
  have := w.small
  have := w.percents_le i
  rw [place, TankCleaning.goesOn_iff, lt_turns_iff, ← ofInt_natCast, ofInt_pos (by omega)]
  omega

theorem sub_rate (i : Nat) :
    Binary64.ofNat (w.percents i) - w.cleaning.rate = .ofInt (w.percents i - w.rate) := by
  have := w.small
  have := w.percents_le i
  show Binary64.ofNat (w.percents i) - .ofNat w.rate = _
  rw [← ofInt_natCast, ← ofInt_natCast, ofInt_sub (by omega) (by omega)]

theorem sub_rate_neg_iff :
    Binary64.ofNat (w.percents i) - w.cleaning.rate < 0 ↔ w.percents i < w.rate := by
  have := w.small
  have := w.percents_le i
  rw [sub_rate, ofInt_neg (by omega)]
  omega

theorem turn_place (i : Nat) :
    (w.cleaning.process.turn (w.place i)).after = w.place (i + 1) := by
  rw [place, TankCleaning.turn_after, place, percents_succ]
  by_cases hneg : w.percents i < w.rate
  · rw [if_pos (w.sub_rate_neg_iff.2 hneg), Nat.sub_eq_zero_of_le (Nat.le_of_lt hneg)]
    rfl
  · rw [if_neg (mt w.sub_rate_neg_iff.1 hneg), sub_rate, ← ofInt_natCast,
      Int.natCast_sub (Nat.not_lt.1 hneg)]

theorem run_places :
    w.cleaning.process.Run w.cleaning.process.origin
      ((List.range w.turns).map fun i => w.cleaning.process.turn (w.place i)) (w.place w.turns) := by
  rw [origin_eq]
  refine Run.of_places (fun i hi => ?_) ?_
  · exact ⟨w.goesOn_place.2 hi, TankCleaning.turn_aborted _, w.turn_place i⟩
  · simp [Bool.eq_false_iff, goesOn_place]

/-! ### The judgement -/

theorem percents_last_lt_iff (hlast : w.turns = i + 1) :
    w.percents i < w.rate ↔ ¬ w.rate ∣ w.waste := by
  have hpos : 0 < w.percents i := w.lt_turns_iff.1 (by omega)
  have hend := w.percents_turns
  rw [hlast, percents_succ] at hend
  have hsum : w.waste = w.percents i + i * w.rate := by
    rw [percents] at hpos ⊢
    omega
  rw [hsum, Nat.dvd_add_left (Nat.dvd_mul_left _ _)]
  constructor
  · intro hlt hdvd
    exact Nat.not_le.2 hlt (Nat.le_of_dvd hpos hdvd)
  · intro hndvd
    by_contra hge
    exact hndvd (Dvd.intro 1 (by omega))

theorem corrects_last_iff :
    (∃ t, ((List.range w.turns).map fun i => w.cleaning.process.turn (w.place i)).getLast? = some t ∧
      w.cleaning.Corrects t) ↔ 0 < w.waste ∧ ¬ w.rate ∣ w.waste := by
  cases hturns : w.turns with
  | zero =>
    have hend := w.percents_turns
    rw [hturns, percents_zero] at hend
    simp [hend]
  | succ n =>
    have hlast : n < w.turns := by omega
    have hpos : 0 < w.waste := Nat.lt_of_lt_of_le (w.lt_turns_iff.1 hlast) (w.percents_le n)
    simp only [List.range_succ, List.map_append, List.map_singleton, List.getLast?_concat,
      Option.some.injEq, exists_eq_left', hpos, true_and]
    exact w.sub_rate_neg_iff.trans (w.percents_last_lt_iff hturns)

/-- **Cleaning whole percents, in closed form.** It is completed with nothing left, after as many
turns as the waste by the rate, rounded up, with both flags up. The last turn is put right exactly
if the rate does not divide the waste. -/
theorem analyze_whole_percents :
    ∃ a, w.cleaning.process.analyze = .ok a ∧ a.outcome = .completed ∧
      a.iterations = ⌈(w.waste : ℚ) / w.rate⌉₊ ∧ a.finalValue = 0 ∧
      a.invariantMaintained = true ∧ a.variantValid = true ∧
      a.trace.filter (Text.startsWith "CORRECTION") =
        if 0 < w.waste ∧ ¬ w.rate ∣ w.waste then ["CORRECTION: waste level clamped to 0%"]
        else [] := by
  obtain ⟨a, ha⟩ := w.exists_analysis
  obtain ⟨turns, last, run, j⟩ := exists_judged ha
  have hlines := TankCleaning.filter_correction run j
  obtain ⟨rfl, rfl⟩ := run.unique w.run_places
  refine ⟨a, ha, j.completed (TankCleaning.proceeds_of_mem run), ?_, ?_, ?_, ?_, ?_⟩
  · rw [j.iterations, List.length_map, List.length_range, turns]
  · rw [j.finalValue, place, w.percents_turns]
    rfl
  · rw [j.invariant, TankCleaning.keepsInvariant_run w.accepted run]
  · rw [j.variant, all_decreasesVariant_iff]
    intro t ht _
    exact TankCleaning.lowers ha run ht
  · rw [hlines]
    exact if_congr w.corrects_last_iff rfl rfl

/-- A full tank by thirty percent at a time: the fourth turn goes below zero and is put right. -/
theorem analyze_whole_percents_full :
    ∃ a, (TankCleaning.mk (.ofNat 100) (.ofNat 30)).process.analyze = .ok a ∧ a.iterations = 4 ∧
      a.trace.filter (Text.startsWith "CORRECTION") = ["CORRECTION: waste level clamped to 0%"] := by
  obtain ⟨a, ha, -, hiterations, -, -, -, hlines⟩ :=
    analyze_whole_percents ⟨100, 30, by decide, by decide, by decide⟩
  refine ⟨a, ha, hiterations.trans ((Nat.ceil_eq_iff (by decide)).2 ?_), hlines⟩
  norm_num

end WholePercents

end Barista
