/-
When heating makes its variant smaller.

The variant is the distance to the target, rounded; the temperature is what is
added to. In a run that ends every turn that proceeds raises the temperature
(`WaterHeating.rises`), or the loop would still be there, so the variant never
grows. But it can stay where it is, as the distance may be on a wider grid than
the temperature. A rate of more than one and a half gaps at the first distance
rules that out (`WaterHeating.Rises.variant_lt`); one of exactly as much does
not.
-/
import Barista.Proofs.Binary64.Distance
import Barista.Proofs.Cycle.Heating

namespace Barista.WaterHeating

open Binary64 CyclicProcess

variable {h : WaterHeating} {a : Analysis}

/-! ## Turns that proceed -/

/-- The temperature before a turn that proceeds, and the one after it. -/
structure Rises (h : WaterHeating) (before after : Binary64) : Prop where
  sum : after = before + h.rate
  from_start : h.current ≤ before
  below : before < h.target
  higher : before < after
  finite : after.isFinite = true

theorem started_kept (hc : h.checkParameters = .ok ()) (c : Config Unit Binary64)
    (hin : h.current ≤ c.state ∧ c.state.isFinite = true) (_ : h.process.goesOn c = true)
    (hproceed : (h.process.turn c).aborted = false) :
    h.current ≤ (h.process.turn c).after.state ∧ (h.process.turn c).after.state.isFinite = true := by
  have b := within_of_proceeds hc hin.2 hproceed
  rw [turn_after]
  exact ⟨Binary64.le_trans hin.1 b.low, b.finite⟩

/-- **Every turn of a run that ends raises the temperature**, if it proceeds. -/
theorem rises (ha : h.process.analyze = .ok a) {turns last}
    (run : h.process.Run h.process.origin turns last) {t : Turn Unit Binary64} (ht : t ∈ turns)
    (hproceed : t.aborted = false) : h.Rises t.before.state t.after.state := by
  have hc := accepted_of_analyze_eq_ok ha
  obtain ⟨fcurrent, -⟩ := checkParameters_eq_ok.1 hc
  obtain ⟨⟨hfrom, fbefore⟩, go⟩ :=
    run.forall_before (started_kept hc) ⟨Binary64.le_refl fcurrent, fcurrent⟩ t ht
  have hturn := run.turn_before t ht
  rw [← hturn] at hproceed ⊢
  have b := within_of_proceeds hc fbefore hproceed
  have hbelow := goesOn_iff.1 go
  rw [turn_after]
  refine ⟨rfl, hfrom, hbelow, (lt_iff_of_le b.low).2 (Bool.eq_false_iff.2 fun hsame => ?_), b.finite⟩
  -- A rate that is swallowed here would have kept the loop here.
  have hs : h.Stalls := ⟨_, hfrom, hbelow, Binary64.le_trans b.low b.high, hsame⟩
  rw [analyze_of_stalls hc hs] at ha
  cases ha

/-! ## The variant -/

theorem Rises.variant_le (ftarget : h.target.isFinite = true) {before after : Binary64}
    (r : h.Rises before after) : h.target - after ≤ h.target - before := by
  have fbefore := (isFinite_of_add (r.sum ▸ r.finite)).1
  exact sub_le_sub ftarget fbefore r.finite (Binary64.le_of_lt r.higher)

theorem Rises.variant_lt (ftarget : h.target.isFinite = true) (fcurrent : h.current.isFinite = true)
    (hdistance : (h.target - h.current).isFinite = true)
    (hrate : 3 * (gap (h.target.units - h.current.units).natAbs : Int) < 2 * h.rate.units)
    {before after : Binary64} (r : h.Rises before after) : h.target - after < h.target - before := by
  obtain ⟨rfl, hfrom, hbelow, hhigher, hfinite⟩ := r
  exact sub_add_lt_sub ftarget fcurrent hdistance hrate hfrom hbelow hhigher hfinite

/-- **When heating makes its variant smaller.** In a run that ends, every turn that proceeds raises
the temperature, and the variant never grows; it is valid exactly if no such turn leaves it at the
same number. So it is valid if the distance from start to target is finite and the rate is more than
one and a half gaps there. -/
theorem analyze_variant (ha : h.process.analyze = .ok a) :
    ∃ turns last, h.process.Run h.process.origin turns last ∧
      (∀ t ∈ turns, t.aborted = false → t.before.state < t.after.state ∧
        h.target - t.after.state ≤ h.target - t.before.state) ∧
      (a.variantValid = true ↔ ∀ t ∈ turns, t.aborted = false →
        (h.target - t.before.state).sameNumber (h.target - t.after.state) = false) ∧
      ((h.target - h.current).isFinite = true →
        3 * (gap (h.target.units - h.current.units).natAbs : Int) < 2 * h.rate.units →
        a.variantValid = true) := by
  obtain ⟨fcurrent, ftarget, -⟩ := checkParameters_eq_ok.1 (accepted_of_analyze_eq_ok ha)
  obtain ⟨turns, last, run, -, hjudge, -⟩ := run_of_analyze_eq_ok ha
  have hrises := fun t ht => rises ha run (t := t) ht
  have hvalid : a.variantValid = true ↔ ∀ t ∈ turns, t.aborted = false →
      h.target - t.after.state < h.target - t.before.state := by
    rw [hjudge, (flags_judge run.turn_before).2]
    exact all_decreasesVariant_iff
  refine ⟨turns, last, run, ?_, hvalid.trans ?_, ?_⟩
  · intro t ht hproceed
    have r := hrises t ht hproceed
    exact ⟨r.higher, r.variant_le ftarget⟩
  · refine forall₃_congr fun t ht hproceed => ?_
    exact lt_iff_of_le ((hrises t ht hproceed).variant_le ftarget)
  · intro hdistance hrate
    exact hvalid.2 fun t ht hproceed =>
      (hrises t ht hproceed).variant_lt ftarget fcurrent hdistance hrate

/-- Water from 20 to 95 degrees by 5 a time: the gaps at 75 are far below the rate. -/
theorem analyze_variant_tea :
    ∃ a, (WaterHeating.mk 20 95 5 100).process.analyze = .ok a ∧ a.variantValid = true := by
  obtain ⟨a, ha, -⟩ := exists_of_map_analyze (show
    (WaterHeating.mk 20 95 5 100).process.analyze.toOption.map (·.outcome) = some .completed by
      decide +kernel)
  obtain ⟨turns, last, -, -, -, hfine⟩ := analyze_variant ha
  exact ⟨a, ha, hfine (by decide +kernel) (by decide +kernel)⟩

/-- Heating from `-(2^52 + 3)` towards a half below zero. The distance to the target is halfway
between whole numbers, which are a gap apart there, and the rate is one and a half of them. -/
def coarseHeating : WaterHeating := ⟨-4503599627370499, -0.5, 1.5, -4503599627370498⟩

/-- The first turn leaves the variant of `coarseHeating` at `2^52 + 2`, and the second is cut off. -/
theorem not_every_judged_variant_valid :
    ¬ ∀ (h : WaterHeating) (a : Analysis), h.process.analyze = .ok a → a.variantValid = true := by
  intro valid
  obtain ⟨a, ha, h⟩ := exists_of_map_analyze (show
    coarseHeating.process.analyze.toOption.map (·.variantValid) = some false by decide +kernel)
  rw [valid coarseHeating a ha] at h
  cases h

end Barista.WaterHeating
