/-
Heating on whole degrees, in closed form.

On whole numbers of ordinary size every sum and difference of the loop is
exact, so the place after `i` turns is known: `current + i * rate` degrees. No
whole rate is swallowed, so the loop is judged, and the one run that there is
goes through these places (`Path.of_places`): for as many turns as the distance
divided by the rate, rounded up, or up to the first place that is too hot.
-/
import Barista.Proofs.Binary64.Integers
import Barista.Proofs.Cycle.HeatingVariant
import Barista.Proofs.Cycle.Judgement

namespace Barista

open Binary64 CyclicProcess

/-- Heating on whole degrees, by one at least; none of the numbers is larger than `2^52`. -/
structure WholeDegrees where
  current : Int
  target : Int
  rate : Int
  maxSafe : Int
  current_small : current.natAbs ≤ 2 ^ 52
  target_small : target.natAbs ≤ 2 ^ 52
  maxSafe_small : maxSafe.natAbs ≤ 2 ^ 52
  rate_pos : 1 ≤ rate
  rate_small : rate ≤ 2 ^ 52

namespace WholeDegrees

variable (w : WholeDegrees) {i n : Nat}

def heating : WaterHeating := ⟨.ofInt w.current, .ofInt w.target, .ofInt w.rate, .ofInt w.maxSafe⟩

/-- The degrees after so many turns. -/
def degrees (i : Nat) : Int := w.current + i * w.rate

def place (i : Nat) : Config Unit Binary64 := ⟨(), .ofInt (w.degrees i)⟩

def turns : Nat := ⌈((w.target - w.current : Int) : ℚ) / w.rate⌉₊

/-- The turns on the way to the target after which it is too hot. -/
def tooHot : Set Nat := {j | 1 ≤ j ∧ j ≤ w.turns ∧ w.maxSafe < w.current + j * w.rate}

theorem small : w.current.natAbs ≤ 2 ^ 52 ∧ w.target.natAbs ≤ 2 ^ 52 ∧ w.maxSafe.natAbs ≤ 2 ^ 52 ∧
    1 ≤ w.rate ∧ w.rate ≤ 2 ^ 52 :=
  ⟨w.current_small, w.target_small, w.maxSafe_small, w.rate_pos, w.rate_small⟩

theorem degrees_zero : w.degrees 0 = w.current := by simp [degrees]

theorem degrees_succ (i : Nat) : w.degrees (i + 1) = w.degrees i + w.rate := by
  simp only [degrees]
  push_cast
  ring

theorem current_le_degrees (i : Nat) : w.current ≤ w.degrees i := by
  have := Int.mul_nonneg (Int.natCast_nonneg i) (Int.le_of_lt w.rate_pos)
  simp only [degrees]
  omega

theorem lt_turns_iff : i < w.turns ↔ w.degrees i < w.target := by
  rw [turns, Nat.lt_ceil, lt_div_iff₀ (by exact_mod_cast w.rate_pos), degrees]
  norm_cast
  omega

theorem succ_mem_tooHot : i + 1 ∈ w.tooHot ↔ i < w.turns ∧ w.maxSafe < w.degrees (i + 1) := by
  simp [tooHot, degrees, Nat.succ_le_iff]

theorem exists_first (h : w.tooHot.Nonempty) : ∃ n, IsLeast w.tooHot (n + 1) := by
  classical
  obtain ⟨first, hfirst⟩ : ∃ first, IsLeast w.tooHot first := ⟨_, Nat.isLeast_find h⟩
  cases first with
  | zero => exact absurd hfirst.1.1 (by omega)
  | succ n => exact ⟨n, hfirst⟩

theorem origin_eq : w.heating.process.origin = w.place 0 := by
  rw [place, degrees_zero]
  rfl

/-! ### The loop is judged -/

theorem magnitude_eq :
    w.heating.magnitude = .ofInt (max w.current.natAbs w.target.natAbs : Nat) := by
  have := w.small
  simp only [heating, WaterHeating.magnitude]
  rw [ofInt_abs (by omega), ofInt_abs (by omega), ofInt_greatest (by omega) (by omega), Nat.cast_max]

theorem accepted : w.heating.checkParameters = .ok () := by
  have := w.small
  have hpos := (ofInt_pos (a := w.rate) (by omega)).2 w.rate_pos
  rw [WaterHeating.checkParameters_eq_ok, magnitude_eq]
  exact ⟨(ofInt_spec (by omega)).1, (ofInt_spec (by omega)).1, (ofInt_spec (by omega)).1,
    ⟨(ofInt_spec (by omega)).1, hpos⟩, sameNumber_ofInt_add (by omega) (by omega) w.rate_pos (by omega)⟩

theorem exists_bound : ∃ n, w.heating.process.iterationBound = some n := by
  have := w.small
  show ∃ n, Rate.bound (.ofInt w.target - .ofInt w.current) (.ofInt w.rate) = some n
  rw [ofInt_sub (by omega) (by omega)]
  refine Rate.exists_bound (ofInt_spec (by omega)).1 ?_ (ofInt_spec (by omega)).1 ?_
  · rw [← ofInt_natCast, ofInt_le_ofInt (by omega) (by simp)]
    omega
  · exact (one_le_ofInt (by omega)).2 w.rate_pos

/-- There is no tie in which the loop could stall. -/
theorem not_stalls : ¬ w.heating.Stalls := by
  intro hs
  have := w.small
  have htie := WaterHeating.tie_of_stalls w.accepted hs
  have hrate : w.heating.rate.units = w.rate * one := (ofInt_spec (by omega)).2
  rw [magnitude_eq, ofInt_natCast, (ofNat_spec (by omega)).2, Int.natAbs_natCast, hrate] at htie
  exact (gap_lt_two_mul (by omega) w.rate_pos).ne' htie

theorem exists_analysis : ∃ a, w.heating.process.analyze = .ok a := by
  obtain ⟨n, hb⟩ := w.exists_bound
  exact (WaterHeating.climbs w.accepted hb w.not_stalls).analyze_ok w.accepted

/-! ### The run -/

theorem degrees_small (hbelow : w.degrees i < w.target) :
    (w.degrees i).natAbs ≤ 2 ^ 53 ∧ (w.degrees (i + 1)).natAbs ≤ 2 ^ 53 := by
  have := w.small
  have := w.current_le_degrees i
  have := w.degrees_succ i
  omega

theorem add_rate (hbelow : w.degrees i < w.target) :
    Binary64.ofInt (w.degrees i) + .ofInt w.rate = .ofInt (w.degrees (i + 1)) := by
  have := w.small
  rw [ofInt_add (w.degrees_small hbelow).1 (by omega), degrees_succ]

theorem goesOn_place (hsmall : (w.degrees i).natAbs ≤ 2 ^ 53) :
    w.heating.process.goesOn (w.place i) = true ↔ w.degrees i < w.target := by
  have := w.small
  rw [place, WaterHeating.goesOn_iff, ← ofInt_lt_ofInt hsmall (by omega)]
  rfl

theorem turn_place (hbelow : w.degrees i < w.target) :
    (w.heating.process.turn (w.place i)).after = w.place (i + 1) := by
  rw [place, WaterHeating.turn_after, place, ← w.add_rate hbelow]
  rfl

theorem aborted_place (hbelow : w.degrees i < w.target) :
    (w.heating.process.turn (w.place i)).aborted = decide (w.maxSafe < w.degrees (i + 1)) := by
  have := w.small
  rw [place, WaterHeating.turn_aborted, decide_eq_decide,
    ← ofInt_lt_ofInt (by omega) (w.degrees_small hbelow).2, ← w.add_rate hbelow]
  rfl

theorem measure_place (hsmall : (w.degrees i).natAbs ≤ 2 ^ 53) :
    w.heating.process.measure (w.place i) = .ofInt (w.target - w.degrees i) := by
  have := w.small
  rw [← ofInt_sub (by omega) hsmall, place, WaterHeating.measure_eq]
  rfl

theorem measure_place_lt (hbelow : w.degrees i < w.target) :
    w.heating.process.measure (w.place (i + 1)) < w.heating.process.measure (w.place i) := by
  have := w.small
  have := w.current_le_degrees i
  have := w.degrees_succ i
  obtain ⟨hsmall, hsmall'⟩ := w.degrees_small hbelow
  rw [w.measure_place hsmall, w.measure_place hsmall', ofInt_lt_ofInt (by omega) (by omega)]
  omega

/-- A run visits these places only, so every turn of it makes the variant smaller. -/
theorem decreasesVariant_run {turns last}
    (run : w.heating.process.Run w.heating.process.origin turns last) :
    turns.all w.heating.process.decreasesVariant = true := by
  have hkept : ∀ k, (∃ i, k = w.place i ∧ (w.degrees i).natAbs ≤ 2 ^ 53) →
      w.heating.process.goesOn k = true → (w.heating.process.turn k).aborted = false →
        ∃ i, (w.heating.process.turn k).after = w.place i ∧ (w.degrees i).natAbs ≤ 2 ^ 53 := by
    rintro k ⟨i, rfl, hsmall⟩ go -
    have hbelow := (w.goesOn_place hsmall).1 go
    exact ⟨i + 1, w.turn_place hbelow, (w.degrees_small hbelow).2⟩
  have hstart : (w.degrees 0).natAbs ≤ 2 ^ 53 := by
    have := w.small
    rw [degrees_zero]
    omega
  rw [all_decreasesVariant_iff]
  intro t ht _
  obtain ⟨⟨i, hi, hsmall⟩, go⟩ := run.forall_before hkept ⟨0, w.origin_eq, hstart⟩ t ht
  have hbelow := (w.goesOn_place hsmall).1 (hi ▸ go)
  rw [← run.turn_before t ht, hi, w.turn_place hbelow]
  exact w.measure_place_lt hbelow

theorem path_places (hbelow : n ≤ w.turns) (hcool : ∀ i < n, w.degrees (i + 1) ≤ w.maxSafe) :
    w.heating.process.Path w.heating.process.origin
      ((List.range n).map fun i => w.heating.process.turn (w.place i)) (w.place n) := by
  rw [origin_eq]
  refine Path.of_places fun i hi => ?_
  have hlow := w.lt_turns_iff.1 (Nat.lt_of_lt_of_le hi hbelow)
  refine ⟨(w.goesOn_place (w.degrees_small hlow).1).2 hlow, ?_, w.turn_place hlow⟩
  rw [w.aborted_place hlow, decide_eq_false_iff_not]
  exact Int.not_lt.2 (hcool i hi)

theorem small_turns : (w.degrees w.turns).natAbs ≤ 2 ^ 53 := by
  cases h : w.turns with
  | zero =>
    have := w.small
    rw [degrees_zero]
    omega
  | succ n => exact (w.degrees_small (w.lt_turns_iff.1 (by omega))).2

theorem run_completed (hcool : ∀ i < w.turns, w.degrees (i + 1) ≤ w.maxSafe) :
    w.heating.process.Run w.heating.process.origin
      ((List.range w.turns).map fun i => w.heating.process.turn (w.place i)) (w.place w.turns) := by
  have stop : w.heating.process.goesOn (w.place w.turns) = false := by
    simp [Bool.eq_false_iff, w.goesOn_place w.small_turns, ← lt_turns_iff]
  simpa using (w.path_places (Nat.le_refl _) hcool).append (.ended stop)

theorem run_cut (hn : n < w.turns) (hcool : ∀ i < n, w.degrees (i + 1) ≤ w.maxSafe)
    (hhot : w.maxSafe < w.degrees (n + 1)) :
    w.heating.process.Run w.heating.process.origin
      ((List.range (n + 1)).map fun i => w.heating.process.turn (w.place i)) (w.place (n + 1)) := by
  have hlow := w.lt_turns_iff.1 hn
  have go := (w.goesOn_place (w.degrees_small hlow).1).2 hlow
  have abort : (w.heating.process.turn (w.place n)).aborted = true := by
    rw [w.aborted_place hlow, decide_eq_true hhot]
  have run := (w.path_places (Nat.le_of_lt hn) hcool).append (.aborted go abort)
  rwa [w.turn_place hlow, ← List.map_singleton (f := fun i => w.heating.process.turn (w.place i)),
    ← List.map_append, ← List.range_succ] at run

/-! ### The judgement -/

section

variable {a : Analysis} {turns : List (Turn Unit Binary64)} {last : Config Unit Binary64}
  (run : w.heating.process.Run w.heating.process.origin turns last)
  (j : w.heating.process.Judged turns last a)

include run j

theorem invariantMaintained_iff :
    a.invariantMaintained = true ↔ w.target ≤ w.current ∨ w.current ≤ w.maxSafe := by
  have := w.small
  rw [j.invariant, WaterHeating.keepsInvariant_run w.accepted run]
  exact or_congr (ofInt_le_ofInt (by omega) (by omega)) (ofInt_le_ofInt (by omega) (by omega))

theorem judged_cut (hn : n < w.turns) (hcool : ∀ i < n, w.degrees (i + 1) ≤ w.maxSafe)
    (hhot : w.maxSafe < w.degrees (n + 1)) :
    a.outcome = .safetyAborted ∧ a.iterations = n + 1 ∧
      a.finalValue = .ofInt (w.degrees (n + 1)) := by
  obtain ⟨rfl, rfl⟩ := run.unique (w.run_cut hn hcool hhot)
  refine ⟨j.aborted.2 ⟨w.heating.process.turn (w.place n), ?_, ?_⟩, by simpa using j.iterations,
    j.finalValue⟩
  · simp [List.range_succ]
  · rw [w.aborted_place (w.lt_turns_iff.1 hn), decide_eq_true hhot]

theorem judged_completed (hcool : ∀ i < w.turns, w.degrees (i + 1) ≤ w.maxSafe) :
    a.outcome = .completed ∧ a.iterations = w.turns ∧
      a.finalValue = .ofInt (w.degrees w.turns) := by
  obtain ⟨rfl, rfl⟩ := run.unique (w.run_completed hcool)
  refine ⟨j.completed (List.forall_mem_map.2 fun i hi => ?_), by simpa using j.iterations,
    j.finalValue⟩
  rw [List.mem_range] at hi
  rw [w.aborted_place (w.lt_turns_iff.1 hi), decide_eq_false (Int.not_lt.2 (hcool i hi))]

end

/-- **Heating on whole degrees, in closed form.** A start that is hot enough is the end of it. From
any other it takes the distance by the rate, rounded up, unless a place on the way is too hot: then
the first such place is where it is cut off. The variant is valid, and the invariant is maintained
exactly if the start is safe. -/
theorem analyze_whole_degrees :
    ∃ a, w.heating.process.analyze = .ok a ∧
      (w.target ≤ w.current →
        a.iterations = 0 ∧ a.outcome = .completed ∧ a.finalValue = .ofInt w.current ∧
          a.invariantMaintained = true ∧ a.variantValid = true) ∧
      (w.current < w.target →
        (w.tooHot.Nonempty →
          a.outcome = .safetyAborted ∧ IsLeast w.tooHot a.iterations ∧
            a.finalValue = .ofInt (w.current + a.iterations * w.rate)) ∧
        (¬ w.tooHot.Nonempty →
          a.outcome = .completed ∧
            a.iterations = ⌈((w.target - w.current : Int) : ℚ) / w.rate⌉₊ ∧
            a.finalValue = .ofInt (w.current + a.iterations * w.rate)) ∧
        a.variantValid = true ∧ (a.invariantMaintained = true ↔ w.current ≤ w.maxSafe)) := by
  obtain ⟨a, ha⟩ := w.exists_analysis
  obtain ⟨turns, last, run, j⟩ := exists_judged ha
  have hinvariant := w.invariantMaintained_iff run j
  have hvariant : a.variantValid = true := j.variant.trans (w.decreasesVariant_run run)
  refine ⟨a, ha, fun hhot => ?_, fun hcold => ⟨fun hcut => ?_, fun hcool => ?_, hvariant,
    hinvariant.trans (or_iff_right (Int.not_le.2 hcold))⟩⟩
  · have := w.small
    obtain ⟨rfl, rfl⟩ := WaterHeating.run_of_hot ((ofInt_le_ofInt (by omega) (by omega)).2 hhot) run
    exact ⟨j.iterations, j.completed (by simp), j.finalValue, hinvariant.2 (.inl hhot), hvariant⟩
  · -- The least place that is too hot is the one that the run is cut off at.
    obtain ⟨n, hfirst⟩ := w.exists_first hcut
    obtain ⟨hn, hhot⟩ := w.succ_mem_tooHot.1 hfirst.1
    have hcool : ∀ i < n, w.degrees (i + 1) ≤ w.maxSafe := by
      intro i hi
      by_contra hover
      have := hfirst.2 (w.succ_mem_tooHot.2 ⟨by omega, Int.not_le.1 hover⟩)
      omega
    obtain ⟨hout, hlength, hfinal⟩ := w.judged_cut run j hn hcool hhot
    rw [hlength]
    exact ⟨hout, hfirst, hfinal⟩
  · have hcool' : ∀ i < w.turns, w.degrees (i + 1) ≤ w.maxSafe := by
      intro i hi
      by_contra hover
      exact hcool ⟨i + 1, w.succ_mem_tooHot.2 ⟨hi, Int.not_le.1 hover⟩⟩
    obtain ⟨hout, hlength, hfinal⟩ := w.judged_completed run j hcool'
    rw [hlength]
    exact ⟨hout, rfl, hfinal⟩

/-- Past a hundred degrees by five at a time: a hundred is not too hot yet, the third place is. -/
theorem analyze_whole_degrees_cut :
    ∃ a, (WaterHeating.mk (.ofInt 90) (.ofInt 110) (.ofInt 5) (.ofInt 100)).process.analyze = .ok a ∧
      a.outcome = .safetyAborted ∧ a.iterations = 3 ∧ a.finalValue = .ofInt 105 := by
  obtain ⟨a, ha, -, hcold⟩ := analyze_whole_degrees
    ⟨90, 110, 5, 100, by decide, by decide, by decide, by decide, by decide⟩
  have hthird : 3 ≤ ⌈((110 - 90 : Int) : ℚ) / (5 : Int)⌉₊ := by norm_num
  obtain ⟨hout, hleast, hfinal⟩ :=
    (hcold (by decide)).1 ⟨3, by decide, hthird, by decide⟩
  have hiterations : a.iterations = 3 := by
    have hlow := hleast.2 ⟨by decide, hthird, by decide⟩
    have hhot := hleast.1.2.2
    simp only at hhot
    omega
  rw [hiterations] at hfinal
  exact ⟨a, ha, hout, hiterations, hfinal⟩

end WholeDegrees

end Barista
