/-
The analyzer's verdict is exact: its number of iterations, its outcome, its
final value and its two flags say what happened in the run of the process,
for any process.

The loop accumulates them turn by turn (`CyclicProcess.replay`), so each is
first read off the accumulated turns, and then off the run, where every turn
is the one the process makes at its place (`Run.turn_before`).
-/
import Barista.Cycle.Scripted
import Barista.Proofs.Cycle.Run

namespace Barista.CyclicProcess

variable {M S : Type} {p : CyclicProcess M S}

/-! ## What the turns add up to -/

theorem iterations_replay (r : Progress M S) (turns : List (Turn M S)) :
    (p.replay r turns).iterations = r.iterations + turns.length := by
  induction turns generalizing r with
  | nil => rfl
  | cons t turns ih =>
    simp only [replay, List.foldl_cons, List.length_cons] at ih ⊢
    rw [ih]
    simp only [record, Progress.extend]
    omega

/-- The invariant held where a turn began, and where it ended unless it aborted. -/
def keepsInvariant (p : CyclicProcess M S) (t : Turn M S) : Bool :=
  p.holds t.before && (t.aborted || p.holds t.after)

/-- The variant became smaller in a turn, unless it aborted. -/
def decreasesVariant (p : CyclicProcess M S) (t : Turn M S) : Bool :=
  t.aborted || decide (p.measure t.after < p.measure t.before)

theorem flags_record (r : Progress M S) (c : Config M S) :
    (p.record r c).invariantMaintained = (r.invariantMaintained && p.keepsInvariant (p.turn c)) ∧
      (p.record r c).variantValid = (r.variantValid && p.decreasesVariant (p.turn c)) := by
  obtain ⟨-, -, -, hinv, hvar⟩ := iterate_eq p (r.iterations + 1) c
  simp only [record, Progress.extend, hinv, hvar, keepsInvariant, decreasesVariant]
  exact ⟨rfl, rfl⟩

theorem flags_replay {turns : List (Turn M S)} (hturns : ∀ t ∈ turns, p.turn t.before = t)
    (r : Progress M S) :
    (p.replay r turns).invariantMaintained =
        (r.invariantMaintained && turns.all p.keepsInvariant) ∧
      (p.replay r turns).variantValid = (r.variantValid && turns.all p.decreasesVariant) := by
  induction turns generalizing r with
  | nil => simp [replay]
  | cons t turns ih =>
    obtain ⟨hi, hv⟩ := flags_record (p := p) r t.before
    rw [hturns t (by simp)] at hi hv
    obtain ⟨ihi, ihv⟩ := ih (fun u hu => hturns u (by simp [hu])) (p.record r t.before)
    simp only [replay, List.foldl_cons, List.all_cons] at ihi ihv ⊢
    rw [ihi, ihv, hi, hv, Bool.and_assoc, Bool.and_assoc]
    exact ⟨rfl, rfl⟩

theorem flags_judge {turns : List (Turn M S)} (hturns : ∀ t ∈ turns, p.turn t.before = t) :
    let a := p.judge (p.replay p.start turns)
    a.invariantMaintained = turns.all p.keepsInvariant ∧
      a.variantValid = turns.all p.decreasesVariant := by
  obtain ⟨hinv, hvar⟩ := flags_replay hturns p.start
  exact ⟨hinv.trans (Bool.true_and _), hvar.trans (Bool.true_and _)⟩

theorem all_decreasesVariant_iff {turns : List (Turn M S)} :
    turns.all p.decreasesVariant = true ↔
      ∀ t ∈ turns, t.aborted = false → p.measure t.after < p.measure t.before := by
  simp only [List.all_eq_true, decreasesVariant, Bool.or_eq_true, decide_eq_true_eq]
  refine forall₂_congr fun t _ => ?_
  cases t.aborted <;> simp

/-! ## What a run looks like -/

/-- The last turn decides how the run ended: with it if it aborted, else by the guard. -/
theorem Run.ending {c turns last} (run : p.Run c turns last) :
    (∃ t, turns.getLast? = some t ∧ t.aborted = true) ∨
      ((∀ t, turns.getLast? = some t → t.aborted = false) ∧ p.goesOn last = false) := by
  rcases run.ends_with (fun _ (_ : True) _ _ => trivial) trivial
    with ⟨t, ht, abort, -⟩ | ⟨hall, -, stop⟩
  · exact .inl ⟨t, ht, abort⟩
  · exact .inr ⟨fun t ht => hall t (List.mem_of_getLast? ht), stop⟩

theorem outcome_replay {turns : List (Turn M S)} (hturns : ∀ t ∈ turns, p.turn t.before = t)
    (r : Progress M S) :
    (p.replay r turns).outcome = match turns.getLast? with
      | none => r.outcome
      | some t => if t.aborted then .safetyAborted else .completed := by
  induction turns generalizing r with
  | nil => rfl
  | cons t turns ih =>
    have hrest := ih (fun u hu => hturns u (by simp [hu])) (p.record r t.before)
    simp only [replay, List.foldl_cons] at hrest ⊢
    rw [hrest]
    cases turns with
    | nil =>
      have := outcome_record (p := p) r t.before
      rw [hturns t (by simp)] at this
      simpa using this
    | cons u turns => rw [List.getLast?_cons_cons, List.getLast?_cons]

/-- A run keeps the process's invariant if its turns keep one that implies it. -/
theorem Run.keepsInvariant {inv : Config M S → Prop}
    (hkept : ∀ c, inv c → p.goesOn c = true → (p.turn c).aborted = false → inv (p.turn c).after)
    (hholds : ∀ c, inv c → p.holds c = true) {c turns last} (run : p.Run c turns last) (h : inv c) :
    turns.all p.keepsInvariant = true := by
  rw [List.all_eq_true]
  intro t ht
  obtain ⟨hbefore, go⟩ := run.forall_before hkept h t ht
  have hturn := run.turn_before t ht
  rw [CyclicProcess.keepsInvariant, hholds _ hbefore, Bool.true_and, Bool.or_eq_true]
  cases proceed : t.aborted with
  | true => exact .inl rfl
  | false =>
    rw [← hturn] at proceed ⊢
    exact .inr (hholds _ (hkept _ hbefore go proceed))

/-! ## The verdict -/

/-- **The verdict is exact.** What the analyzer returns is a judgement on the one run of the
process: the number of its turns, whether the last of them aborted (and if not, the guard has failed), the
final value where it ended, whether the invariant held around every turn, an aborting one only
before it, and whether every turn that went on made the variant smaller. -/
theorem analyze_verdict {a : Analysis} (h : p.analyze = .ok a) :
    ∃ turns last, p.Run p.origin turns last ∧
      (∀ turns' last', p.Run p.origin turns' last' → turns' = turns ∧ last' = last) ∧
      a.iterations = turns.length ∧
      (a.outcome = .safetyAborted ↔ ∃ t, turns.getLast? = some t ∧ t.aborted = true) ∧
      (a.outcome = .completed → p.guard last.memory last.state = false) ∧
      a.finalValue = p.finalValue last.memory last.state ∧
      (a.invariantMaintained = true ↔ ∀ t ∈ turns,
        p.invariant t.before.memory t.before.state = true ∧
          (t.aborted = false → p.invariant t.after.memory t.after.state = true)) ∧
      (a.variantValid = true ↔ ∀ t ∈ turns, t.aborted = false →
        p.variant t.after.memory t.after.state < p.variant t.before.memory t.before.state) := by
  obtain ⟨turns, last, run, -, rfl, hlast⟩ := run_of_analyze_eq_ok h
  have hturns := run.turn_before
  have hout := outcome_replay hturns p.start
  obtain ⟨hinv, hvar⟩ := flags_replay hturns p.start
  rw [show p.start.invariantMaintained = true from rfl, Bool.true_and] at hinv
  rw [show p.start.variantValid = true from rfl, Bool.true_and] at hvar
  refine ⟨turns, last, run, fun _ _ run' => run'.unique run, ?_, ?_, ?_, ?_, ?_, ?_⟩
  · simp only [judge, iterations_replay, start, Nat.zero_add]
  · simp only [judge, hout]
    cases turns.getLast? with
    | none => simp [start]
    | some t => cases ht : t.aborted <;> simp [ht]
  · intro hcomp
    rcases run.ending with ⟨t, ht, abort⟩ | ⟨-, stop⟩
    · simp [judge, hout, ht, abort] at hcomp
    · exact stop
  · subst hlast
    rfl
  · simp only [judge, hinv, List.all_eq_true, keepsInvariant, holds, Bool.and_eq_true,
      Bool.or_eq_true]
    apply forall₂_congr
    intro t _
    apply and_congr_right
    intro _
    cases t.aborted <;> simp
  · simp only [judge, hvar, List.all_eq_true, decreasesVariant, Bool.or_eq_true,
      decide_eq_true_eq]
    apply forall₂_congr
    intro t _
    cases t.aborted <;> simp [measure]

/-- The script 3, 4, NaN: the variant grows in the first turn and is no number after the second,
which ends the loop. -/
theorem analyze_verdict_nan :
    ∃ a, (Scripted.mk #[3, 4, .nan] 0 9 none none).process.analyze = .ok a ∧
      a.iterations = 2 ∧ a.variantValid = false ∧ a.finalValue = .nan ∧
      ∃ turns last, (Scripted.mk #[3, 4, .nan] 0 9 none none).process.Run
          (Scripted.mk #[3, 4, .nan] 0 9 none none).process.origin turns last ∧ turns.length = 2 := by
  have h : ((Scripted.mk #[3, 4, .nan] 0 9 none none).process.analyze.toOption.map
      fun a => (a.iterations, a.variantValid, a.finalValue)) = some (2, false, .nan) := by
    decide +kernel
  cases ha : (Scripted.mk #[3, 4, .nan] 0 9 none none).process.analyze with
  | error fault => simp [ha, Except.toOption] at h
  | ok a =>
    simp only [ha, Except.toOption, Option.map_some, Option.some.injEq, Prod.mk.injEq] at h
    obtain ⟨hi, hv, hf⟩ := h
    obtain ⟨turns, last, run, -, hlen, -⟩ := analyze_verdict ha
    exact ⟨a, rfl, hi, hv, hf, turns, last, run, hlen ▸ hi⟩

end Barista.CyclicProcess
