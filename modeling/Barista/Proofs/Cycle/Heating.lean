/-
What comes of heating water, for all doubles.

A turn that proceeds leaves a temperature between the one it started from and
the safe one (`WaterHeating.within_of_proceeds`), so the invariant holds all
along if it holds at the start, and a start above the safe temperature is over
at once. Adding the rate never leads down, rounded as it is, so the
temperatures of a run are in order (`WaterHeating.temperatures_mono`), and the
only turn that writes a line of its own is the one that is cut off.
-/
import Barista.Proofs.Cycle.Termination
import Barista.Proofs.Cycle.Trace

namespace Barista.WaterHeating

open Binary64 CyclicProcess

variable {h : WaterHeating}

/-! ## One turn -/

def cutoffLine (h : WaterHeating) (temperature : Binary64) : String :=
  s!"SAFETY CUTOFF: temperature {temperature.plain}°C " ++
    s!"exceeded safe limit {h.maxSafe.plain}°C"

theorem turn_lines {t : Turn Unit Binary64} (ht : h.process.turn t.before = t) :
    t.moved.lines = if t.aborted then [h.cutoffLine t.after.state] else [] := by
  obtain ⟨⟨⟨⟩, s⟩, moved⟩ := t
  rw [← ht, turn_aborted, turn_after]
  show (h.heat s).lines = _
  unfold heat cutoffLine
  by_cases hcut : h.maxSafe < s + h.rate
  · simp only [if_pos hcut, decide_eq_true hcut, if_true]
  · simp only [if_neg hcut, decide_eq_false hcut, Bool.false_eq_true, if_false]

section

variable (hc : h.checkParameters = .ok ()) {t : Binary64} (ft : t.isFinite = true)

include hc ft

theorem le_add_rate : t ≤ t + h.rate := by
  obtain ⟨-, -, -, ⟨frate, hpos⟩, -⟩ := checkParameters_eq_ok.1 hc
  exact le_add ft frate (Int.le_of_lt ((pos_iff_units frate).1 hpos))

theorem within_of_proceeds (hproceed : (h.process.turn ⟨(), t⟩).aborted = false) :
    Between t h.maxSafe (t + h.rate) := by
  obtain ⟨-, -, fsafe, ⟨frate, -⟩, -⟩ := checkParameters_eq_ok.1 hc
  rw [turn_aborted, decide_eq_false_iff_not] at hproceed
  have hnumber := isNaN_add (isNaN_of_isFinite ft) frate
  have hsafe := (Binary64.lt_or_le (isNaN_of_isFinite fsafe) hnumber).resolve_left hproceed
  exact ⟨le_add_rate hc ft, hsafe, ft, fsafe⟩

theorem temperatures_mono {turns last} (run : h.process.Run ⟨(), t⟩ turns last) :
    (t :: turns.map (·.after.state)).Pairwise (· ≤ ·) := by
  generalize hstart : (⟨(), t⟩ : Config Unit Binary64) = c at run
  induction run generalizing t with
  | ended _ => exact List.pairwise_singleton _ _
  | aborted _ _ =>
    subst hstart
    rw [List.map_singleton, turn_after]
    exact List.pairwise_pair.2 (le_add_rate hc ft)
  | @went c turns last _ proceed _ ih =>
    subst hstart
    have b := within_of_proceeds hc ft proceed
    have hrest := ih b.finite (turn_after t).symm
    rw [List.map_cons, turn_after]
    refine List.pairwise_cons.2 ⟨fun u hu => ?_, hrest⟩
    rcases List.mem_cons.1 hu with rfl | hu
    · exact b.low
    · exact Binary64.le_trans b.low ((List.pairwise_cons.1 hrest).1 u hu)

end

/-! ## The trace -/

theorem onlyInBodies_cutoff : h.process.OnlyInBodies (Text.startsWith "SAFETY CUTOFF") where
  preamble := by
    simp only [process, List.forall_mem_cons, List.not_mem_nil, false_imp_iff, implies_true, and_true]
    refine ⟨by decide +kernel, ?_, ?_, ?_, ?_⟩ <;>
      exact (Text.Apart.append (by decide +kernel) _).startsWith_append _
  analyzer := fun l hl => hl.startsWith_eq_false (by decide +kernel) (by decide +kernel)
  iteration := by
    intro m number before after variant
    simp only [process, String.append_assoc]
    exact Text.Apart.startsWith_append (by decide +kernel) _
  summary := by
    intro m number s
    simp only [process, List.forall_mem_cons, List.not_mem_nil, false_imp_iff, implies_true, and_true]
    exact ⟨Text.Apart.startsWith_append (by decide +kernel) _,
      (Text.Apart.append (by decide +kernel) _).startsWith_append _⟩

theorem startsWith_cutoffLine (t : Binary64) :
    Text.startsWith "SAFETY CUTOFF" (h.cutoffLine t) = true := by
  have hwords : Text.startsWith "SAFETY CUTOFF" "SAFETY CUTOFF: temperature " = true := by
    decide +kernel
  unfold cutoffLine
  exact Text.startsWith_append (Text.startsWith_append (Text.startsWith_append hwords _) _) _

theorem lines_run {c turns last} (run : h.process.Run c turns last) :
    turns.flatMap (·.moved.lines) =
      if ∃ t, turns.getLast? = some t ∧ t.aborted = true then [h.cutoffLine last.state] else [] := by
  induction run with
  | ended _ => simp
  | @aborted c _ abort => simp [turn_lines (t := h.process.turn c) rfl, abort]
  | @went c turns last _ proceed _ ih =>
    rw [List.flatMap_cons, ih, turn_lines rfl, proceed]
    cases turns with
    | nil => simp [proceed]
    | cons t turns => rw [List.getLast?_cons_cons]; rfl

/-! ## The invariant -/

theorem holds_iff (t : Binary64) :
    h.process.holds ⟨(), t⟩ = true ↔ h.current ≤ t ∧ t ≤ h.maxSafe := by
  simp only [holds, process, Bool.and_eq_true, decide_eq_true_eq]

theorem between_kept (hc : h.checkParameters = .ok ()) (c : Config Unit Binary64)
    (b : Between h.current h.maxSafe c.state) (_ : h.process.goesOn c = true)
    (hproceed : (h.process.turn c).aborted = false) :
    Between h.current h.maxSafe (h.process.turn c).after.state := by
  rw [turn_after]
  have b' := within_of_proceeds hc b.finite hproceed
  exact ⟨Binary64.le_trans b.low b'.low, b'.high, b.low_finite, b.high_finite⟩

/-! ## Where a run starts -/

theorem run_of_hot (hhot : h.target ≤ h.current) {turns last}
    (run : h.process.Run h.process.origin turns last) : turns = [] ∧ last = h.process.origin :=
  run.of_stop (Bool.eq_false_iff.2 fun go => Binary64.not_lt_of_le hhot (goesOn_iff.1 go))

theorem run_of_overheated (hc : h.checkParameters = .ok ()) (hcold : h.current < h.target)
    (hover : h.maxSafe < h.current) {turns last}
    (run : h.process.Run h.process.origin turns last) :
    ∃ t, turns = [t] ∧ t.before = h.process.origin ∧ t.aborted = true := by
  obtain ⟨fcurrent, -⟩ := checkParameters_eq_ok.1 hc
  have habort : (h.process.turn h.process.origin).aborted = true :=
    (turn_aborted _).trans (decide_eq_true (Binary64.lt_of_lt_of_le hover (le_add_rate hc fcurrent)))
  obtain ⟨rfl, -⟩ := run.of_abort (goesOn_iff.2 hcold) habort
  exact ⟨_, rfl, rfl, habort⟩

theorem run_of_safe (hc : h.checkParameters = .ok ()) (hsafe : h.current ≤ h.maxSafe) {turns last}
    (run : h.process.Run h.process.origin turns last) :
    (∃ t, turns.getLast? = some t ∧ t.aborted = true ∧ h.maxSafe < last.state ∧
        t.before.state < h.target ∧ t.before.state ≤ h.maxSafe) ∨
      ((∀ t ∈ turns, t.aborted = false) ∧ h.target ≤ last.state ∧ last.state ≤ h.maxSafe) := by
  obtain ⟨fcurrent, ftarget, fsafe, -⟩ := checkParameters_eq_ok.1 hc
  rcases run.ends_with (between_kept hc) ⟨Binary64.le_refl fcurrent, hsafe, fcurrent, fsafe⟩
    with ⟨t, ht, hcut, rfl, b, go⟩ | ⟨hall, b, stop⟩
  · refine .inl ⟨t, ht, hcut, ?_, goesOn_iff.1 go, b.high⟩
    rw [← run.turn_before t (List.mem_of_getLast? ht)] at hcut ⊢
    rw [turn_aborted, decide_eq_true_eq] at hcut
    rw [turn_after]
    exact hcut
  · refine .inr ⟨hall, le_of_not_lt b.finite ftarget fun hcold => ?_, b.high⟩
    rw [goesOn_iff.2 hcold] at stop
    cases stop

theorem keepsInvariant_run (hc : h.checkParameters = .ok ()) {turns last}
    (run : h.process.Run h.process.origin turns last) :
    turns.all h.process.keepsInvariant = true ↔ h.target ≤ h.current ∨ h.current ≤ h.maxSafe := by
  obtain ⟨fcurrent, ftarget, fsafe, -⟩ := checkParameters_eq_ok.1 hc
  constructor
  · intro hall
    rcases Binary64.lt_or_le (isNaN_of_isFinite fcurrent) (isNaN_of_isFinite ftarget) with hcold | hhot
    · refine .inr (le_of_not_lt fsafe fcurrent fun hover => ?_)
      obtain ⟨t, rfl, hbefore, -⟩ := run_of_overheated hc hcold hover run
      have hkeeps := List.all_eq_true.1 hall t (List.mem_singleton_self t)
      rw [keepsInvariant, hbefore, Bool.and_eq_true] at hkeeps
      exact Binary64.not_lt_of_le ((holds_iff _).1 hkeeps.1).2 hover
    · exact .inl hhot
  · rintro (hhot | hsafe)
    · rw [(run_of_hot hhot run).1]
      rfl
    · exact run.keepsInvariant (between_kept hc) (fun c b => (holds_iff _).2 ⟨b.low, b.high⟩)
        ⟨Binary64.le_refl fcurrent, hsafe, fcurrent, fsafe⟩

/-! ## The outcome -/

/-- **What comes of heating water**, for all doubles. The invariant is maintained exactly if nothing
is to be done or the start is safe. A start that is hot enough is the end, one that is above the
safe temperature is cut off in the first iteration; from any other, completion means a safe
temperature that has reached the target, and a cutoff one that is not safe, straight after one that
was safe and below the target. No temperature is lower than one before it, and the cutoff has its
line once, with the last temperature. -/
theorem analyze_outcome {a : Analysis} (ha : h.process.analyze = .ok a) :
    ∃ turns last, h.process.Run h.process.origin turns last ∧
      (a.invariantMaintained = true ↔ h.target ≤ h.current ∨ h.current ≤ h.maxSafe) ∧
      (h.target ≤ h.current →
        a.iterations = 0 ∧ a.outcome = .completed ∧ a.finalValue = h.current) ∧
      (h.current < h.target → h.maxSafe < h.current →
        a.iterations = 1 ∧ a.outcome = .safetyAborted) ∧
      (h.current < h.target → h.current ≤ h.maxSafe →
        (a.outcome = .completed → h.target ≤ a.finalValue ∧ a.finalValue ≤ h.maxSafe) ∧
        (a.outcome = .safetyAborted → h.maxSafe < a.finalValue ∧
          ∃ t, turns.getLast? = some t ∧ t.before.state < h.target ∧
            t.before.state ≤ h.maxSafe)) ∧
      (h.current :: turns.map (·.after.state)).Pairwise (· ≤ ·) ∧
      a.trace.filter (Text.startsWith "SAFETY CUTOFF") =
        if a.outcome = .safetyAborted then [h.cutoffLine a.finalValue] else [] := by
  have hc := accepted_of_analyze_eq_ok ha
  obtain ⟨fcurrent, ftarget, fsafe, -⟩ := checkParameters_eq_ok.1 hc
  obtain ⟨turns, last, run, -, hjudge, hlast⟩ := run_of_analyze_eq_ok ha
  have hturns := run.turn_before
  have hfinal : a.finalValue = last.state := hjudge ▸ congrArg Config.state hlast
  have hout : a.outcome = .safetyAborted ↔ ∃ t, turns.getLast? = some t ∧ t.aborted = true :=
    hjudge ▸ aborted_replay hturns
  refine ⟨turns, last, run, ?_, ?_, ?_, ?_, temperatures_mono hc fcurrent run, ?_⟩
  · rw [← keepsInvariant_run hc run, hjudge, (flags_judge hturns).1]
  · intro hhot
    obtain ⟨rfl, -⟩ := run_of_hot hhot run
    subst hjudge
    exact ⟨rfl, rfl, rfl⟩
  · intro hcold hover
    obtain ⟨t, rfl, -, ht⟩ := run_of_overheated hc hcold hover run
    refine ⟨?_, hout.2 ⟨t, rfl, ht⟩⟩
    subst hjudge
    rfl
  · intro _ hsafe
    rw [hfinal]
    rcases run_of_safe hc hsafe run with ⟨t, ht, hcut, hover, hbefore⟩ | ⟨hall, hdone⟩
    · have haborted := hout.2 ⟨t, ht, hcut⟩
      exact ⟨fun hcompleted => by simp [haborted] at hcompleted, fun _ => ⟨hover, t, ht, hbefore⟩⟩
    · refine ⟨fun _ => hdone, fun haborted => ?_⟩
      obtain ⟨t, ht, hcut⟩ := hout.1 haborted
      rw [hall t (List.mem_of_getLast? ht)] at hcut
      cases hcut
  · rw [hfinal, hjudge, filter_trace onlyInBodies_cutoff hturns, lines_run run, ← hjudge]
    simp only [hout]
    split
    · exact List.filter_cons_of_pos (startsWith_cutoffLine _)
    · rfl

/-- Water from 20 towards 95 degrees by 50 a time is cut off at 120, above the safe 100. -/
theorem analyze_outcome_cutoff :
    ∃ a, (WaterHeating.mk 20 95 50 100).process.analyze = .ok a ∧ a.outcome = .safetyAborted ∧
      100 < a.finalValue ∧ a.invariantMaintained = true ∧
      (a.trace.filter (Text.startsWith "SAFETY CUTOFF")).length = 1 := by
  obtain ⟨a, ha, h⟩ := exists_of_map_analyze (show
    (WaterHeating.mk 20 95 50 100).process.analyze.toOption.map (·.outcome) = some .safetyAborted by
      decide +kernel)
  obtain ⟨turns, last, -, hinvariant, -, -, hends, -, hlines⟩ := analyze_outcome ha
  obtain ⟨-, habort⟩ := hends (by decide +kernel) (by decide +kernel)
  refine ⟨a, ha, h, (habort h).1, hinvariant.2 (.inr (by decide +kernel)), ?_⟩
  rw [hlines, if_pos h]
  rfl

end Barista.WaterHeating
