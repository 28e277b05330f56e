/-
What comes of emptying the waste tank, for all doubles.

A turn never leads up and never below zero (`TankCleaning.turn_within`), so a
level stays between zero and the waste. A run that ends has met no level that
swallows the rate, for the loop would still be there, so every turn of it
lowers the level (`TankCleaning.lowers`); and it ends at zero, where the guard
fails. A level that is put right to zero is the end as well, so the line for
it is written once at most, by the last turn.
-/
import Barista.Proofs.Cycle.Judgement
import Barista.Proofs.Cycle.Termination

namespace Barista.TankCleaning

open Binary64 CyclicProcess

variable {c : TankCleaning} {a : Analysis}

/-! ## One turn -/

/-- The line that a body writes when it puts the level right to zero. -/
def correction : String := "CORRECTION: waste level clamped to 0%"

def Corrects (c : TankCleaning) (t : Turn Unit Binary64) : Prop := t.before.state - c.rate < 0

instance (t : Turn Unit Binary64) : Decidable (c.Corrects t) :=
  inferInstanceAs (Decidable (_ < _))

theorem turn_lines {t : Turn Unit Binary64} (ht : c.process.turn t.before = t) :
    t.moved.lines = if c.Corrects t then [correction] else [] := by
  obtain ⟨⟨⟨⟩, w⟩, moved⟩ := t
  rw [← ht]
  show (c.drain w).lines = if w - c.rate < 0 then _ else _
  unfold drain correction
  by_cases hneg : w - c.rate < 0 <;> simp [hneg]

theorem turn_within (hc : c.checkParameters = .ok ()) {w : Binary64} (b : Between 0 c.waste w) :
    Between 0 w (if w - c.rate < 0 then 0 else w - c.rate) := by
  obtain ⟨-, ⟨frate, hpos⟩, -⟩ := checkParameters_eq_ok.1 hc
  have fw := b.finite
  by_cases hneg : w - c.rate < 0
  · rw [if_pos hneg]
    exact ⟨Binary64.le_refl isFinite_zero, b.low, isFinite_zero, fw⟩
  · rw [if_neg hneg]
    have hnumber : (w - c.rate).isNaN = false :=
      isNaN_add (isNaN_of_isFinite fw) ((isFinite_neg _).trans frate)
    have hlow := (Binary64.lt_or_le hnumber (isNaN_of_isFinite isFinite_zero)).resolve_left hneg
    exact ⟨hlow, sub_le fw frate (Int.le_of_lt ((pos_iff_units frate).1 hpos)), isFinite_zero, fw⟩

theorem between_kept (hc : c.checkParameters = .ok ()) (k : Config Unit Binary64)
    (b : Between 0 c.waste k.state) (_ : c.process.goesOn k = true)
    (_ : (c.process.turn k).aborted = false) :
    Between 0 c.waste (c.process.turn k).after.state := by
  have b' := turn_within hc b
  rw [turn_after]
  exact ⟨b'.low, Binary64.le_trans b'.high b.high, isFinite_zero, b.high_finite⟩

theorem between_start (hc : c.checkParameters = .ok ()) (hpos : 0 < c.waste) :
    Between 0 c.waste c.process.origin.state := by
  obtain ⟨fwaste, -⟩ := checkParameters_eq_ok.1 hc
  exact ⟨Binary64.le_of_lt hpos, Binary64.le_refl fwaste, isFinite_zero, fwaste⟩

/-! ## Runs -/

theorem run_of_empty (hempty : ¬ 0 < c.waste) {turns last}
    (run : c.process.Run c.process.origin turns last) : turns = [] ∧ last = c.process.origin :=
  run.of_stop (Bool.eq_false_iff.2 fun go => hempty (goesOn_iff.1 go))

theorem proceeds_of_mem {k turns last} (run : c.process.Run k turns last) :
    ∀ t ∈ turns, t.aborted = false := by
  intro t ht
  rw [← run.turn_before t ht]
  exact turn_aborted _

theorem holds_iff (w : Binary64) : c.process.holds ⟨(), w⟩ = true ↔ 0 ≤ w ∧ w ≤ c.waste := by
  simp only [holds, process, Bool.and_eq_true, decide_eq_true_eq]

theorem keepsInvariant_run (hc : c.checkParameters = .ok ()) {turns last}
    (run : c.process.Run c.process.origin turns last) :
    turns.all c.process.keepsInvariant = true := by
  by_cases hpos : 0 < c.waste
  · exact run.keepsInvariant (between_kept hc) (fun k b => (holds_iff _).2 ⟨b.low, b.high⟩)
      (between_start hc hpos)
  · rw [(run_of_empty hpos run).1]
    rfl

/-- **Every turn of a run that ends lowers the level.** -/
theorem lowers (ha : c.process.analyze = .ok a) {turns last}
    (run : c.process.Run c.process.origin turns last) {t : Turn Unit Binary64} (ht : t ∈ turns) :
    t.after.state < t.before.state := by
  have hc := accepted_of_analyze_eq_ok ha
  by_cases hpos : 0 < c.waste
  · obtain ⟨b, go⟩ := run.forall_before (between_kept hc) (between_start hc hpos) t ht
    have within := turn_within hc b
    rw [← run.turn_before t ht, turn_after]
    by_cases hneg : t.before.state - c.rate < 0
    · rw [if_pos hneg]
      exact goesOn_iff.1 go
    · rw [if_neg hneg] at within ⊢
      refine (lt_iff_of_le within.high).2 (Bool.eq_false_iff.2 fun hsame => ?_)
      -- A rate that is swallowed here would have kept the loop here.
      have hs : c.Stalls := ⟨_, goesOn_iff.1 go, b.high, sameNumber_comm _ _ ▸ hsame⟩
      rw [analyze_of_stalls hc hs] at ha
      cases ha
  · simp [(run_of_empty hpos run).1] at ht

theorem run_ends_empty (hc : c.checkParameters = .ok ()) (hpos : 0 < c.waste) {turns last}
    (run : c.process.Run c.process.origin turns last) : last.state = 0 := by
  obtain ⟨-, ⟨frate, hrate⟩, -⟩ := checkParameters_eq_ok.1 hc
  have hkept : ∀ k, Between 0 c.waste k.state ∧ (k.state = 0 ∨ 0 < k.state) →
      c.process.goesOn k = true → (c.process.turn k).aborted = false →
        Between 0 c.waste (c.process.turn k).after.state ∧
          ((c.process.turn k).after.state = 0 ∨ 0 < (c.process.turn k).after.state) := by
    rintro k ⟨b, -⟩ go proceed
    refine ⟨between_kept hc k b go proceed, ?_⟩
    rw [turn_after]
    by_cases hneg : k.state - c.rate < 0
    · exact .inl (if_pos hneg)
    · rw [if_neg hneg]
      exact sub_eq_zero_or_pos b.finite frate (goesOn_iff.1 go) hrate hneg
  rcases run.ends_with hkept ⟨between_start hc hpos, .inr hpos⟩
    with ⟨t, ht, habort, -⟩ | ⟨-, ⟨-, hlast⟩, stop⟩
  · simp [proceeds_of_mem run t (List.mem_of_getLast? ht)] at habort
  · refine hlast.resolve_right fun hmore => ?_
    rw [goesOn_iff.2 hmore] at stop
    cases stop

/-! ## The trace -/

/-- Before the last turn nothing is put right: the guard would have failed. -/
theorem lines_before_last {k turns last} (run : c.process.Run k turns last) :
    ∀ t ∈ turns.dropLast, t.moved.lines = [] := by
  intro t ht
  have go := run.goesOn_before_last t ht
  have hturn := run.turn_before t (List.dropLast_subset _ ht)
  rw [turn_lines hturn, if_neg]
  intro hneg
  rw [Corrects] at hneg
  rw [← hturn, turn_after, goesOn_iff, if_pos hneg, lt_iff_units isFinite_zero isFinite_zero] at go
  exact Int.lt_irrefl _ go

theorem lines_run {k turns last} (run : c.process.Run k turns last) :
    turns.flatMap (·.moved.lines) =
      if ∃ t, turns.getLast? = some t ∧ c.Corrects t then [correction] else [] := by
  have hbefore := lines_before_last run
  have hturns := run.turn_before
  rcases List.eq_nil_or_concat turns with rfl | ⟨front, t, rfl⟩
  · simp
  · rw [List.concat_eq_append] at *
    rw [List.dropLast_concat] at hbefore
    rw [List.flatMap_append, List.flatMap_eq_nil_iff.2 hbefore, List.flatMap_singleton,
      turn_lines (hturns t (by simp))]
    simp

theorem onlyInBodies_correction : c.process.OnlyInBodies (Text.startsWith "CORRECTION") where
  preamble := by
    simp only [process, List.forall_mem_cons, List.not_mem_nil, false_imp_iff, implies_true, and_true]
    refine ⟨by decide +kernel, ?_, ?_⟩ <;>
      exact (Text.Apart.append (by decide +kernel) _).startsWith_append _
  analyzer := fun l hl => hl.startsWith_eq_false (by decide +kernel) (by decide +kernel)
  iteration := by
    intro m number before after variant
    simp only [process, String.append_assoc]
    exact Text.Apart.startsWith_append (by decide +kernel) _
  summary := by
    intro m number w
    simp only [process, List.forall_mem_cons, List.not_mem_nil, false_imp_iff, implies_true, and_true]
    exact ⟨Text.Apart.startsWith_append (by decide +kernel) _,
      (Text.Apart.append (by decide +kernel) _).startsWith_append _⟩

theorem filter_correction {turns last} (run : c.process.Run c.process.origin turns last)
    (j : c.process.Judged turns last a) :
    a.trace.filter (Text.startsWith "CORRECTION") =
      if ∃ t, turns.getLast? = some t ∧ c.Corrects t then [correction] else [] := by
  rw [j.written _ onlyInBodies_correction, lines_run run]
  split <;> decide +kernel

/-! ## The outcome -/

/-- **What comes of cleaning**, for all doubles. A run that ends is completed with both flags up. It
leaves nothing if there was anything to clean, and else does nothing. The line of a correction
stands in the trace once if the last turn went below zero, and else never, and in no block of the
trace but the last. -/
theorem analyze_correct (ha : c.process.analyze = .ok a) :
    ∃ turns last, c.process.Run c.process.origin turns last ∧
      a.outcome = .completed ∧ a.invariantMaintained = true ∧ a.variantValid = true ∧
      (0 < c.waste → a.finalValue = 0) ∧
      (¬ 0 < c.waste → a.finalValue = c.waste ∧ a.iterations = 0) ∧
      a.trace.filter (Text.startsWith "CORRECTION") =
        (if ∃ t, turns.getLast? = some t ∧ t.before.state - c.rate < 0
        then ["CORRECTION: waste level clamped to 0%"] else []) ∧
      ∀ b ∈ (turns.mapIdx fun i t => c.process.block (i + 1) t).dropLast,
        b.lines.filter (Text.startsWith "CORRECTION") = [] := by
  have hc := accepted_of_analyze_eq_ok ha
  obtain ⟨turns, last, run, j⟩ := exists_judged ha
  refine ⟨turns, last, run, j.completed (proceeds_of_mem run), ?_, ?_, ?_, ?_,
    filter_correction run j, ?_⟩
  · rw [j.invariant, keepsInvariant_run hc run]
  · rw [j.variant, all_decreasesVariant_iff]
    intro t ht _
    exact lowers ha run ht
  · intro hpos
    rw [j.finalValue, ← run_ends_empty hc hpos run]
    rfl
  · intro hempty
    obtain ⟨rfl, rfl⟩ := run_of_empty hempty run
    exact ⟨j.finalValue, j.iterations⟩
  · rw [← blocks_start]
    refine filter_lines_before_last onlyInBodies_correction (fun t ht => ?_) _
    rw [lines_before_last run t ht, List.filter_nil]

/-- Half a percent by a tenth at a time: rounding leaves a little after five turns, and the sixth
goes below zero and is put right. -/
theorem analyze_correct_tenths :
    ∃ a, (TankCleaning.mk 0.5 0.1).process.analyze = .ok a ∧ a.iterations = 6 ∧
      a.finalValue = 0 ∧ a.variantValid = true := by
  obtain ⟨a, ha, h⟩ := exists_of_map_analyze (show
    (TankCleaning.mk 0.5 0.1).process.analyze.toOption.map (·.iterations) = some 6 by
      decide +kernel)
  obtain ⟨turns, last, -, -, -, hvariant, hempty, -⟩ := analyze_correct ha
  exact ⟨a, ha, h, hempty (by decide +kernel), hvariant⟩

end Barista.TankCleaning
