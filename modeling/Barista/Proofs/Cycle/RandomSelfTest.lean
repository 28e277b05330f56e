/-
Self-tests with random outcomes.

`SelfTest.drawnRun` is the self-test that draws from a stream of numbers, with
the log of its calls. The call for dispenser `i` says what the tester's `i`-th
test says (`calls_random`), so neither the number of dispensers nor the rate
moves one call against another: a shorter run is the beginning of a longer one,
and at a higher rate every dispenser that has passed passes again. This holds
of any stream (`random_runs_coupled`); a seed has the stream of its key
(`seeded_runs_coupled`).
-/
import Barista.Proofs.Cycle.SelfTest
import Barista.Proofs.Random.Tester

namespace Barista.SelfTest

open Binary64 Barista.Random

variable {m n : Nat} {draws : Nat → UInt64} {rate p q : Binary64}

/-- The judgement on a self-test with random outcomes, and the calls of its test. -/
def drawnRun (draws : Nat → UInt64) (rate : Binary64) (n : Nat) :
    Except Fault (Analysis × List Call) := do
  let tester ← Tester.ofDraws draws rate
  let t := random n tester
  let a ← t.process.analyze
  let r ← t.recorded.process.runFor n n t.recorded.process.start
  return (a, r.memory.2)

def seededRun (seed : UInt64) (rate : Binary64) (n : Nat) : Except Fault (Analysis × List Call) :=
  drawnRun (draw (.ofSeed seed)) rate n

/-- What is called for a dispenser says what the test of its number says. -/
def drawnCalls (draws : Nat → UInt64) (rate : Binary64) (n : Nat) : List Call :=
  (List.range n).map fun i => ⟨i, Tester.outcome ⟨draws, rate, 0⟩ i⟩

theorem memoryAfter_random (n : Nat) (tester : Tester) (i : Nat) :
    (random n tester).memoryAfter i = tester.after i := by
  induction i with
  | zero => exact tester.after_zero.symm
  | succ i ih =>
    rw [memoryAfter, ih]
    exact congrArg Prod.snd (tester.test_after i)

theorem calls_random (n : Nat) (tester : Tester) (i : Nat) :
    (random n tester).calls i = (List.range i).map fun j => ⟨j, tester.outcome j⟩ := by
  refine List.map_congr_left fun j _ => ?_
  rw [answer, memoryAfter_random]
  exact congrArg (Call.mk j) (congrArg Prod.fst (tester.test_after j))

/-- A run makes the calls of its stream and counts those that passed. -/
theorem exists_drawnRun (draws : Nat → UInt64) (hlow : 0 ≤ rate) (hhigh : rate ≤ 1) (n : Nat) :
    ∃ a, (random n ⟨draws, rate, 0⟩).process.analyze = .ok a ∧
      drawnRun draws rate n = .ok (a, drawnCalls draws rate n) ∧
      a.finalValue = .ofNat ((drawnCalls draws rate n).countP Call.passed) := by
  have hcalls := calls_random n ⟨draws, rate, 0⟩ n
  obtain ⟨a, ha, j⟩ := (random n ⟨draws, rate, 0⟩).exists_judged_run
  obtain ⟨r, hr, hlog, -⟩ := (random n ⟨draws, rate, 0⟩).exists_log
  refine ⟨a, ha, ?_, ?_⟩
  · have hlogged : r.memory.2 = drawnCalls draws rate n := hlog.trans hcalls
    replace hr : (random n ⟨draws, rate, 0⟩).recorded.process.runFor n n
      (random n ⟨draws, rate, 0⟩).recorded.process.start = .ok r := hr
    simp only [drawnRun, Tester.ofDraws_eq_ok hlow hhigh, bind, Except.bind, ha, hr, hlogged]
    rfl
  · rw [drawnCalls, ← hcalls]
    exact j.finalValue

/-! ## One stream, several runs -/

theorem dispensers_drawnCalls (draws : Nat → UInt64) (rate : Binary64) (n : Nat) :
    (drawnCalls draws rate n).map Call.dispenser = List.range n := by
  simp [drawnCalls, Function.comp_def]

theorem passed_drawnCalls (draws : Nat → UInt64) (rate : Binary64) (n : Nat) :
    (drawnCalls draws rate n).map Call.passed = Tester.outcomes n ⟨draws, rate, 0⟩ := by
  rw [Tester.outcomes_eq]
  simp [drawnCalls, Function.comp_def]

theorem take_drawnCalls (h : m ≤ n) :
    (drawnCalls draws rate n).take m = drawnCalls draws rate m := by
  rw [drawnCalls, ← List.map_take, List.take_range, Nat.min_eq_left h, drawnCalls]

theorem mem_drawnCalls {i : Nat} :
    Call.mk i true ∈ drawnCalls draws rate n ↔
      i < n ∧ Tester.outcome ⟨draws, rate, 0⟩ i = true := by
  simp [drawnCalls]

theorem countP_drawnCalls (draws : Nat → UInt64) (rate : Binary64) (n : Nat) :
    (drawnCalls draws rate n).countP Call.passed =
      (List.range n).countP (Tester.outcome ⟨draws, rate, 0⟩) :=
  List.countP_map

theorem passed_mono (hp : 0 ≤ p) (h : p ≤ q) (hq : q ≤ 1) {i : Nat}
    (hpassed : Call.mk i true ∈ drawnCalls draws p n) :
    Call.mk i true ∈ drawnCalls draws q n := by
  obtain ⟨hi, hout⟩ := mem_drawnCalls.1 hpassed
  exact mem_drawnCalls.2 ⟨hi, Tester.outcome_mono hp h hq hout⟩

theorem countP_drawnCalls_mono (draws : Nat → UInt64) (n : Nat) (hp : 0 ≤ p) (h : p ≤ q)
    (hq : q ≤ 1) :
    (drawnCalls draws p n).countP Call.passed ≤ (drawnCalls draws q n).countP Call.passed := by
  rw [countP_drawnCalls, countP_drawnCalls]
  exact List.countP_mono_left fun i _ => Tester.outcome_mono hp h hq

theorem countP_drawnCalls_zero (draws : Nat → UInt64) (negative : Bool) (n : Nat) :
    (drawnCalls draws (zero negative) n).countP Call.passed = 0 := by
  rw [countP_drawnCalls, List.countP_eq_zero]
  simp [Tester.outcome_zero]

theorem countP_drawnCalls_one (draws : Nat → UInt64) (n : Nat) :
    (drawnCalls draws 1 n).countP Call.passed = n := by
  rw [countP_drawnCalls, List.countP_eq_length.2 fun i _ => Tester.outcome_one _ _ i,
    List.length_range]

/-- **Random self-tests of one stream move together.** A run tests every dispenser in order, with
what the tester says in as many tests, and counts those that passed; the run of fewer dispensers
makes the first of its calls. No dispenser that passes at a rate fails at a higher one, and so no
fewer are counted; none is at the rate zero, of either sign, and all are at the rate one. -/
theorem random_runs_coupled (draws : Nat → UInt64) (n : Nat) :
    (∀ rate, 0 ≤ rate → rate ≤ 1 → ∃ a calls,
      (random n ⟨draws, rate, 0⟩).process.analyze = .ok a ∧
      drawnRun draws rate n = .ok (a, calls) ∧
      calls.map Call.dispenser = List.range n ∧
      calls.map Call.passed = Tester.outcomes n ⟨draws, rate, 0⟩ ∧
      a.finalValue = .ofNat (calls.countP Call.passed) ∧
      ∀ m ≤ n, ∃ b, drawnRun draws rate m = .ok (b, calls.take m)) ∧
    (∀ p q, 0 ≤ p → p ≤ q → q ≤ 1 → ∃ a b calls calls',
      drawnRun draws p n = .ok (a, calls) ∧ drawnRun draws q n = .ok (b, calls') ∧
      (∀ i, Call.mk i true ∈ calls → Call.mk i true ∈ calls') ∧ a.finalValue ≤ b.finalValue) ∧
    (∀ negative, ∃ a calls, drawnRun draws (zero negative) n = .ok (a, calls) ∧
      a.finalValue = 0) ∧
    ∃ a calls, drawnRun draws 1 n = .ok (a, calls) ∧ a.finalValue = .ofNat n := by
  have hone : (0 : Binary64) ≤ 1 ∧ (1 : Binary64) ≤ 1 := by decide +kernel
  have hzero (negative : Bool) : 0 ≤ zero negative ∧ zero negative ≤ 1 := by
    cases negative <;> decide +kernel
  refine ⟨fun rate hlow hhigh => ?_, fun p q hp h hq => ?_, fun negative => ?_, ?_⟩
  · obtain ⟨a, ha, hrun, hfinal⟩ := exists_drawnRun draws hlow hhigh n
    refine ⟨a, _, ha, hrun, dispensers_drawnCalls draws rate n, passed_drawnCalls draws rate n,
      hfinal, fun m hm => ?_⟩
    obtain ⟨b, -, hshort, -⟩ := exists_drawnRun draws hlow hhigh m
    exact ⟨b, by rw [hshort, take_drawnCalls hm]⟩
  · obtain ⟨a, -, hrun, hfinal⟩ := exists_drawnRun draws hp (Binary64.le_trans h hq) n
    obtain ⟨b, -, hrun', hfinal'⟩ := exists_drawnRun draws (Binary64.le_trans hp h) hq n
    refine ⟨a, b, _, _, hrun, hrun', fun i => passed_mono hp h hq, ?_⟩
    rw [hfinal, hfinal']
    exact ofNat_mono (countP_drawnCalls_mono draws n hp h hq)
  · obtain ⟨a, -, hrun, hfinal⟩ := exists_drawnRun draws (hzero negative).1 (hzero negative).2 n
    refine ⟨a, _, hrun, ?_⟩
    rw [hfinal, countP_drawnCalls_zero]
    decide +kernel
  · obtain ⟨a, -, hrun, hfinal⟩ := exists_drawnRun draws hone.1 hone.2 n
    exact ⟨a, _, hrun, by rw [hfinal, countP_drawnCalls_one]⟩

/-! ## Seeds -/

/-- **Seeded self-tests move together.** Just the rates that are no probabilities are refused. With
any other, a run tests every dispenser in order, with what the tester says in as many tests, and
counts those that passed, as the command shows it; the run of fewer dispensers makes the first of
its calls. With one seed, no dispenser that passes at a rate fails at a higher one, and so no fewer
are counted; none is at the rate zero, of either sign, and all are at the rate one. -/
theorem seeded_runs_coupled (seed : UInt64) (n : Nat) :
    (∀ key rate, Tester.create key rate = .error (.invalidParameter "pass rate" rate) ↔
      ¬ (rate.isFinite = true ∧ 0 ≤ rate.value ∧ rate.value ≤ 1)) ∧
    (∀ rate, 0 ≤ rate → rate ≤ 1 → ∃ a calls, seededRun seed rate n = .ok (a, calls) ∧
      calls.map Call.dispenser = List.range n ∧
      calls.map Call.passed = Tester.outcomes n ⟨draw (.ofSeed seed), rate, 0⟩ ∧
      a.finalValue = .ofNat (calls.countP Call.passed) ∧
      (∀ key json, CommandLine.runCycle key json (.dispensers n [] (some seed.toNat) rate) =
        CommandLine.printCycle json (random n ⟨draw (.ofSeed seed), rate, 0⟩).description a) ∧
      ∀ m ≤ n, ∃ b, seededRun seed rate m = .ok (b, calls.take m)) ∧
    (∀ p q, 0 ≤ p → p ≤ q → q ≤ 1 → ∃ a b calls calls',
      seededRun seed p n = .ok (a, calls) ∧ seededRun seed q n = .ok (b, calls') ∧
      (∀ i, Call.mk i true ∈ calls → Call.mk i true ∈ calls') ∧ a.finalValue ≤ b.finalValue) ∧
    (∀ negative, ∃ a calls, seededRun seed (zero negative) n = .ok (a, calls) ∧
      a.finalValue = 0) ∧
    ∃ a calls, seededRun seed 1 n = .ok (a, calls) ∧ a.finalValue = .ofNat n := by
  obtain ⟨hruns, hrest⟩ := random_runs_coupled (draw (.ofSeed seed)) n
  refine ⟨fun _ _ => Tester.ofDraws_eq_error_iff, fun rate hlow hhigh => ?_, hrest⟩
  obtain ⟨a, calls, ha, hrun, hdispensers, hpassed, hfinal, hfirst⟩ := hruns rate hlow hhigh
  refine ⟨a, calls, hrun, hdispensers, hpassed, hfinal, fun key json => ?_, hfirst⟩
  have hcreate : Tester.create (.ofSeed seed) rate = .ok ⟨draw (.ofSeed seed), rate, 0⟩ :=
    Tester.ofDraws_eq_ok hlow hhigh
  simp [CommandLine.runCycle, hcreate, ha, CommandLine.Run.ofExcept]

/-- Two rates with the seed of the tests, and the first two dispensers of five. -/
theorem seeded_runs_coupled_five :
    (∃ a b calls calls', seededRun 42 0.2 5 = .ok (a, calls) ∧ seededRun 42 0.8 5 = .ok (b, calls') ∧
      (∀ i, Call.mk i true ∈ calls → Call.mk i true ∈ calls') ∧ a.finalValue ≤ b.finalValue) ∧
    ∃ a b calls, seededRun 42 0.8 5 = .ok (a, calls) ∧ seededRun 42 0.8 2 = .ok (b, calls.take 2) := by
  obtain ⟨-, hprefix, hmono, -⟩ := seeded_runs_coupled 42 5
  obtain ⟨a, calls, ha, -, -, -, -, hfirst⟩ := hprefix 0.8 (by decide +kernel) (by decide +kernel)
  obtain ⟨b, hb⟩ := hfirst 2 (by decide)
  exact ⟨hmono 0.2 0.8 (by decide +kernel) (by decide +kernel) (by decide +kernel),
    a, b, calls, ha, hb⟩

end Barista.SelfTest
