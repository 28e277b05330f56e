/-
The self-test tests every dispenser once, and in order.

`SelfTest.recorded` is the self-test with a test that keeps a log of its calls
as well. Nothing else is different about it, so the two are judged alike
(`analyze_recorded`), and the log shows which calls the analyzer's loop makes.
A body always proceeds, so the place after `i` turns is the one after a call
for each dispenser below `i` (`place`), and the loop ends at the last of them
with as many turns as its bound allows it. The variant counts down in doubles,
which are exact up to `2^53`.
-/
import Barista.CommandLine.Run
import Barista.Proofs.Binary64.Integers
import Barista.Proofs.Cycle.Judgement
import Mathlib.Data.Finset.Card

namespace Barista.SelfTest

open CyclicProcess

variable {M : Type} (t : SelfTest M) {i n : Nat}

/-- A call of a test: for which dispenser, and what it said. -/
structure Call where
  dispenser : Nat
  passed : Bool
deriving DecidableEq

/-- The line of a call in the trace, where dispensers are counted from one. -/
def Call.line (c : Call) : String :=
  let outcome := if c.passed then "PASSED" else "FAILED"
  s!"Dispenser {c.dispenser + 1} test: {outcome}"

/-! ## The calls -/

/-- The self-test with a log of the calls of its test. -/
def recorded : SelfTest (M × List Call) where
  dispensers := t.dispensers
  memory := (t.memory, [])
  test := fun m index =>
    let (passed, memory) := t.test m.1 index
    (passed, memory, m.2 ++ [⟨index, passed⟩])

/-- The memory after one call for each dispenser below `i`, in order. -/
def memoryAfter : Nat → M
  | 0 => t.memory
  | i + 1 => (t.test (memoryAfter i) i).2

/-- What the test says of a dispenser, after the calls for those before it. -/
def answer (i : Nat) : Bool := (t.test (t.memoryAfter i) i).1

/-- One call for each dispenser below `i`, in order. -/
def calls (i : Nat) : List Call := (List.range i).map fun j => ⟨j, t.answer j⟩

theorem calls_succ (i : Nat) : t.calls (i + 1) = t.calls i ++ [⟨i, t.answer i⟩] := by
  simp [calls, List.range_succ]

@[simp] theorem length_calls (i : Nat) : (t.calls i).length = i := by simp [calls]

theorem memoryAfter_recorded (i : Nat) : t.recorded.memoryAfter i = (t.memoryAfter i, t.calls i) := by
  induction i with
  | zero => rfl
  | succ i ih =>
    rw [memoryAfter, ih, calls_succ]
    rfl

/-! ## The log changes nothing -/

/-- A run so far without the log. -/
def forget (r : Progress (M × List Call) Tally) : Progress M Tally :=
  ⟨r.memory.1, r.state, r.iterations, r.outcome, r.invariantMaintained, r.variantValid, r.trace⟩

theorem forget_record (r : Progress (M × List Call) Tally) :
    forget (t.recorded.process.record r r.config) =
      t.process.record (forget r) (forget r).config := by
  simp only [record, Progress.extend, forget, iterate, process, testNext, recorded, Progress.config,
    invariantLines]
  rfl

theorem runFor_recorded (limit left : Nat) (r : Progress (M × List Call) Tally) :
    (t.recorded.process.runFor limit left r).map forget =
      t.process.runFor limit left (forget r) := by
  have hgoes : t.recorded.process.goesOn r.config = t.process.goesOn (forget r).config := rfl
  induction left generalizing r with
  | zero =>
    rw [runFor_zero, runFor_zero, hgoes]
    split <;> rfl
  | succ left ih =>
    rw [runFor_succ, runFor_succ, hgoes, ← forget_record]
    cases t.process.goesOn (forget r).config with
    | false => rfl
    | true => exact ih (t.recorded.process.record r r.config) rfl

theorem analyze_recorded : t.recorded.process.analyze = t.process.analyze := by
  rw [analyze_eq _ rfl, analyze_eq _ rfl]
  show _ = (t.process.runFor _ _ (forget t.recorded.process.start)).map _
  rw [← runFor_recorded]
  show (t.recorded.process.runFor t.dispensers t.dispensers _).map _ =
    ((t.recorded.process.runFor t.dispensers t.dispensers _).map forget).map _
  cases t.recorded.process.runFor t.dispensers t.dispensers t.recorded.process.start <;> rfl

/-! ## The run -/

/-- How many of the first calls the test has passed. -/
def passes (i : Nat) : Nat := (t.calls i).countP (·.passed)

def place (i : Nat) : Config M Tally := ⟨t.memoryAfter i, t.passes i, i⟩

theorem passes_succ (i : Nat) :
    t.passes (i + 1) = if t.answer i then t.passes i + 1 else t.passes i := by
  rw [passes, calls_succ, List.countP_append]
  cases t.answer i <;> simp [passes]

theorem passes_le (i : Nat) : t.passes i ≤ i := by
  simpa [passes] using List.countP_le_length (p := Call.passed) (l := t.calls i)

theorem origin_eq : t.process.origin = t.place 0 := rfl

theorem goesOn_place : t.process.goesOn (t.place i) = true ↔ i < t.dispensers :=
  decide_eq_true_iff

theorem turn_place (i : Nat) : (t.process.turn (t.place i)).after = t.place (i + 1) := by
  rw [place, place, passes_succ]
  rfl

theorem turn_aborted (c : Config M Tally) : (t.process.turn c).aborted = false := rfl

theorem variant_eq : t.process.variant = fun _ s => .ofNat t.dispensers - .ofNat s.tested := rfl

theorem measure_eq (m : M) (passed tested : Nat) :
    t.process.measure ⟨m, passed, tested⟩ = .ofNat t.dispensers - .ofNat tested := by
  rw [CyclicProcess.measure, variant_eq]

theorem lines_place (i : Nat) :
    (t.process.turn (t.place i)).moved.lines = [Call.line ⟨i, t.answer i⟩] := rfl

theorem run_places :
    t.process.Run t.process.origin
      ((List.range t.dispensers).map fun i => t.process.turn (t.place i))
      (t.place t.dispensers) := by
  rw [origin_eq]
  refine Run.of_places (fun i hi => ?_) ?_
  · exact ⟨t.goesOn_place.2 hi, t.turn_aborted _, t.turn_place i⟩
  · simp [Bool.eq_false_iff, goesOn_place]

theorem holds_place (hi : i ≤ t.dispensers) : t.process.holds (t.place i) = true := by
  simp [holds, process, place, t.passes_le i, hi]

theorem measure_place (hsmall : t.dispensers ≤ 2 ^ 53) (hi : i ≤ t.dispensers) :
    t.process.measure (t.place i) = .ofInt (t.dispensers - i) := by
  rw [place, measure_eq, ← Binary64.ofInt_natCast, ← Binary64.ofInt_natCast,
    Binary64.ofInt_sub (by omega) (by omega)]

theorem measure_place_lt (hsmall : t.dispensers ≤ 2 ^ 53) (hi : i < t.dispensers) :
    t.process.measure (t.place (i + 1)) < t.process.measure (t.place i) := by
  rw [t.measure_place hsmall hi, t.measure_place hsmall (Nat.le_of_lt hi),
    Binary64.ofInt_lt_ofInt (by omega) (by omega)]
  omega

/-! ## The judgement -/

theorem onlyInBodies_dispenser : t.process.OnlyInBodies (Text.startsWith "Dispenser ") where
  preamble := by
    simp only [process, List.forall_mem_cons, List.not_mem_nil, false_imp_iff, implies_true, and_true]
    exact ⟨by decide +kernel, Text.Apart.startsWith_append (by decide +kernel) _⟩
  analyzer := fun l hl => hl.startsWith_eq_false (by decide +kernel) (by decide +kernel)
  iteration := by
    intro m number before after variant
    simp only [process, String.append_assoc]
    exact Text.Apart.startsWith_append (by decide +kernel) _
  summary := by
    intro m number s
    simp only [process, List.forall_mem_cons, List.not_mem_nil, false_imp_iff, implies_true, and_true,
      String.append_assoc]
    exact ⟨Text.Apart.startsWith_append (by decide +kernel) _,
      Text.Apart.startsWith_append (by decide +kernel) _⟩

theorem Call.startsWith_line (c : Call) : Text.startsWith "Dispenser " c.line = true := by
  have hwords : Text.startsWith "Dispenser " "Dispenser " = true := by decide +kernel
  simp only [line, String.append_assoc]
  exact Text.startsWith_append hwords _

theorem lines_run :
    ((List.range n).map fun i => t.process.turn (t.place i)).flatMap (·.moved.lines) =
      (t.calls n).map Call.line := by
  simp [List.flatMap_map, lines_place, calls, ← List.map_eq_flatMap]

theorem keepsInvariant_run :
    ((List.range t.dispensers).map fun i => t.process.turn (t.place i)).all
      t.process.keepsInvariant = true := by
  rw [List.all_eq_true, List.forall_mem_map]
  intro i hi
  rw [List.mem_range] at hi
  have hbefore : t.process.holds (t.process.turn (t.place i)).before = true :=
    t.holds_place (Nat.le_of_lt hi)
  simp [keepsInvariant, turn_place, hbefore, t.holds_place hi]

theorem decreasesVariant_run (hsmall : t.dispensers ≤ 2 ^ 53) :
    ((List.range t.dispensers).map fun i => t.process.turn (t.place i)).all
      t.process.decreasesVariant = true := by
  rw [all_decreasesVariant_iff, List.forall_mem_map]
  intro i hi _
  rw [turn_place]
  exact t.measure_place_lt hsmall (List.mem_range.1 hi)

theorem exists_judged_run : ∃ a, t.process.analyze = .ok a ∧
    t.process.Judged ((List.range t.dispensers).map fun i => t.process.turn (t.place i))
      (t.place t.dispensers) a :=
  exists_judged_of_run rfl t.run_places (by simp [limit, process])

theorem exists_log : ∃ r, t.recorded.process.runFor t.dispensers t.dispensers
      t.recorded.process.start = .ok r ∧ r.memory.2 = t.calls t.dispensers ∧
    t.process.analyze = .ok (t.recorded.process.judge r) := by
  have hlen : ((List.range t.recorded.dispensers).map fun i =>
      t.recorded.process.turn (t.recorded.place i)).length ≤ t.dispensers := by
    simp [recorded]
  obtain ⟨hrun, hlast⟩ := runFor_of_run t.dispensers t.recorded.run_places hlen
    (config_start t.recorded.process)
  refine ⟨_, hrun, ?_, ?_⟩
  · have hmemory := congrArg Config.memory hlast
    rw [place, memoryAfter_recorded] at hmemory
    exact congrArg Prod.snd hmemory
  · rw [← analyze_recorded]
    exact analyze_of_run rfl t.recorded.run_places hlen

/-! ## A list of failures -/

/-- Each listed dispenser below `n` fails its one call, however often it is listed. -/
theorem countP_calls_failing (n : Nat) (failures : List Nat) :
    ((failing n failures).calls n).countP (·.passed) =
      n - (failures.toFinset.filter (· < n)).card := by
  have hlisted : (List.range n).countP (failures.contains ·) =
      (failures.toFinset.filter (· < n)).card := by
    rw [List.countP_eq_length_filter, ← List.toFinset_card_of_nodup (List.nodup_range.filter _)]
    congr 1
    ext j
    simp [and_comm]
  have hall := List.length_eq_countP_add_countP (failures.contains ·) (l := List.range n)
  have hpassed : ((failing n failures).calls n).countP (·.passed) =
      (List.range n).countP fun j => ¬ failures.contains j := by
    simp [calls, List.countP_map, answer, failing, Function.comp_def]
  rw [List.length_range] at hall
  omega

/-! ## Every dispenser, once -/

/-- **The self-test tests every dispenser once**, up to `2^53` of them. With any test it is
completed after as many iterations, with both flags up; the log of its calls has every dispenser in
order, the final value counts those that passed, and the trace has the line of each call. With a
list of failures, the final value leaves out the different dispensers that are listed. -/
theorem analyze_every_dispenser (hn : n ≤ 2 ^ 53) :
    (∀ (M : Type) (t : SelfTest M), t.dispensers = n →
      ∃ a r, t.process.analyze = .ok a ∧
        t.recorded.process.runFor n n t.recorded.process.start = .ok r ∧
        a = t.recorded.process.judge r ∧ r.memory.2.map Call.dispenser = List.range n ∧
        a.outcome = .completed ∧ a.iterations = n ∧
        a.invariantMaintained = true ∧ a.variantValid = true ∧
        a.finalValue = .ofNat (r.memory.2.countP Call.passed) ∧
        a.trace.filter (Text.startsWith "Dispenser ") = r.memory.2.map Call.line) ∧
    ∀ key json failures seed passRate, failures ≠ [] →
      ∃ a, (SelfTest.failing n failures).process.analyze = .ok a ∧
        CommandLine.runCycle key json (.dispensers n failures seed passRate) =
          CommandLine.printCycle json (SelfTest.failing n failures).description a ∧
        a.finalValue = .ofNat (n - (failures.toFinset.filter (· < n)).card) := by
  constructor
  · rintro M t rfl
    obtain ⟨a, ha, j⟩ := t.exists_judged_run
    obtain ⟨r, hr, hlog, hjudge⟩ := t.exists_log
    rw [ha] at hjudge
    refine ⟨a, r, ha, hr, Except.ok.inj hjudge, ?_⟩
    rw [hlog]
    refine ⟨?_, ?_, ?_, ?_, ?_, j.finalValue, ?_⟩
    · simp [calls, Function.comp_def]
    · exact j.completed (by simp [turn_aborted])
    · simpa using j.iterations
    · rw [j.invariant, keepsInvariant_run]
    · rw [j.variant, t.decreasesVariant_run hn]
    · rw [j.written _ t.onlyInBodies_dispenser, lines_run, List.filter_eq_self]
      simp [Call.startsWith_line]
  · intro key json failures seed passRate hlisted
    obtain ⟨a, ha, j⟩ := (failing n failures).exists_judged_run
    refine ⟨a, ha, ?_, ?_⟩
    · simp [CommandLine.runCycle, hlisted, ha, CommandLine.Run.ofExcept]
    · rw [← countP_calls_failing]
      exact j.finalValue

/-- A test that turns over at every call, of more dispensers than a loop without a bound could have;
and a list that names one of them twice and one that is not there. -/
theorem analyze_every_dispenser_many :
    (∃ a, (SelfTest.mk 100001 true fun m _ => (m, !m)).process.analyze = .ok a ∧
      a.outcome = .completed ∧ a.iterations = 100001) ∧
    ∃ a, (SelfTest.failing 100001 [0, 2, 2, 500000]).process.analyze = .ok a ∧
      a.finalValue = .ofNat 99999 := by
  obtain ⟨hany, hlist⟩ := analyze_every_dispenser (n := 100001) (by decide)
  obtain ⟨a, -, ha, -, -, -, hout, hiterations, -⟩ :=
    hany Bool (SelfTest.mk 100001 true fun m _ => (m, !m)) rfl
  obtain ⟨b, hb, -, hfinal⟩ :=
    hlist (Random.Key.ofSeed 0) false [0, 2, 2, 500000] none 0 (by decide)
  have hpassed : 100001 - ([0, 2, 2, 500000].toFinset.filter (· < 100001)).card = 99999 := by
    decide
  rw [hpassed] at hfinal
  exact ⟨⟨a, ha, hout, hiterations⟩, b, hb, hfinal⟩

end Barista.SelfTest
