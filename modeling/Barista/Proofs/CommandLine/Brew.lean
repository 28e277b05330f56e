/-
The commands about one order agree.

Three commands take the same order to the same machine: one lists the
conditions, one prints the report on the weakest precondition, and one brews.
The last one prints the report too, from what the brew itself has reported if
it was carried out, and from a preview if not (`runBrew_cases`); either way it
is the report that the second command prints (`brew_agrees`).
-/
import Barista.CommandLine.Run
import Barista.Proofs.Requests.Preconditions
import Barista.Proofs.WeakestPrecondition.Report

namespace Barista.CommandLine

open WeakestPrecondition (conditionLines filter_conditionLines newline_notMem_conditionLines
  unmetLine)

variable {m : Machine}

theorem exists_printAnalysis (policy : MilkPolicy) (m : Machine) (order : Order) (price : Binary64)
    (postconditions : Conditions) :
    ∃ text, printAnalysis policy m order price postconditions = .success text := by
  have hbase : WeakestPrecondition.basePrice (WeakestPrecondition.pricesWithBase price) = .ok price :=
    rfl
  obtain ⟨report, hreport⟩ := WeakestPrecondition.exists_report
    (r := order.analysis policy m postconditions (WeakestPrecondition.pricesWithBase price)) hbase
  refine ⟨report ++ "\n", ?_⟩
  rw [printAnalysis, hreport]
  rfl

theorem lines_runValidate (policy : MilkPolicy) (m : Machine) (order : Order) :
    Text.lines (runValidate policy m order).printed =
      conditionLines "PRECONDITIONS" (order.preconditions policy m) ++
        [s!"Valid: {(order.preconditions policy m).allMet}"] := by
  have hplain := newline_notMem_conditionLines (order.newline_notMem_name policy m)
  have hprinted : (runValidate policy m order).printed =
      Text.unlines (conditionLines "PRECONDITIONS" (order.preconditions policy m) ++
        [s!"Valid: {(order.preconditions policy m).allMet}"]) := by
    rw [Text.unlines_append]
    rfl
  rw [hprinted, Text.lines_unlines]
  intro line hline
  rcases List.mem_append.1 hline with hcondition | hvalid
  · exact hplain line hcondition
  · rw [List.mem_singleton.1 hvalid]
    cases (order.preconditions policy m).allMet <;> decide

/-- The line on an order that was brewed, and an empty one. -/
def brewedLines (m : Machine) (order : Order) : String :=
  s!"Brewed {order.drink.name} in {(m.brewTime order.drink order.sugar).fixed 1} s " ++
    s!"(wear +{order.wear.fixed 2})\n\n"

/-- What the brew command comes to beside the report on its own: the report between two texts, or
the report and a failure. -/
theorem runBrew_cases (policy : MilkPolicy) (order : Order) (price : Binary64)
    (hmade : m.drinksMade.toNat < 4294967295) (htotal : m.totalDrinksMade.toNat < 4294967295) :
    ((order.preconditions policy m).allMet = true ∧
      ∃ report text, (order.brew policy 0 m).result = .ok report ∧
        runAnalyse policy m order price = .success text ∧
        runBrew policy m order price = .success (brewedLines m order ++ text ++ "\n" ++
          (order.brew policy 0 m).machine.status.text ++ "\n")) ∨
    ((order.preconditions policy m).allMet = false ∧
      ∃ text, (order.brew policy 0 m).result =
          .error (.preconditionsFailed .brew (order.preconditions policy m).failed) ∧
        runAnalyse policy m order price = .success text ∧
        runBrew policy m order price = .failed text (.during "brewing failed"
          (.preconditionsFailed .brew (order.preconditions policy m).failed))) := by
  cases hmet : (order.preconditions policy m).allMet with
  | true =>
    obtain ⟨report, after, hdone, -⟩ := Order.carryOut_kept hmet hmade htotal 0
    have hbrew : order.brew policy 0 m = .done report after := Attempt.guarded_eq_done hmet hdone
    obtain ⟨text, htext⟩ := exists_printAnalysis policy m order price report.postconditions
    have hanalysis : runAnalyse policy m order price = .success text := by
      rw [runAnalyse, Order.preview, hbrew, ← htext]
      rfl
    refine .inl ⟨rfl, report, text, by rw [hbrew]; rfl, hanalysis, ?_⟩
    simp only [runBrew, hbrew, Attempt.done, htext, Run.after, Run.success, brewedLines]
    rw [Order.report_of_carryOut hdone]
  | false =>
    have hunmet : ¬ (order.preconditions policy m).allMet = true := by simp [hmet]
    have hbrew : order.brew policy 0 m =
        .refused (.preconditionsFailed .brew (order.preconditions policy m).failed) m :=
      Attempt.guarded_eq_refused hunmet
    obtain ⟨text, htext⟩ := exists_printAnalysis policy m order price
      (.ofList (Order.postconditionNames.map (·, false)))
    have hanalysis : runAnalyse policy m order price = .success text := by
      rw [runAnalyse, Order.preview, hbrew, ← htext]
      rfl
    refine .inr ⟨rfl, text, by rw [hbrew]; rfl, hanalysis, ?_⟩
    simp only [runBrew, hbrew, Attempt.refused, hanalysis, Run.success]

theorem Invocation.run_of_build {i : Invocation} (key : Random.Key)
    (h : i.machine.build = .ok m) : i.run key = i.command.run key i.machine.policy m := by
  rw [run, h]

theorem text_during_brewing (cause : Fault) : (Failure.during "brewing failed" cause).text =
    "Error: brewing failed\n\nCaused by:\n    " ++ cause.message ++ "\n" := by
  have hprefix : "Error: " ++ "brewing failed" ++ "\n\nCaused by:\n    " =
      "Error: brewing failed\n\nCaused by:\n    " := by decide
  rw [← hprefix]
  rfl

/-- **The three commands about an order agree**, on any machine that options describe, at any price,
even one that is no number. Brewing succeeds if and only if the list of conditions ends in saying
that the order is valid. Then it prints a line on the drink, exactly what the report on its own
prints, and the status of the machine that has brewed. Otherwise it prints the report alone, and
fails with the conditions that the list shows as not met. -/
theorem brew_agrees (key : Random.Key) {options : MachineOptions} (hbuild : options.build = .ok m)
    (order : Order) (price : Binary64) (start : Nat) :
    let output (command : Command) : Output := (Invocation.run key ⟨options, command⟩).output
    let validate := output (.validate order)
    let analysis := output (.analyse order price)
    let brew := output (.brew order price)
    let attempt := order.brew options.policy start m
    (validate.exitCode = 0 ∧ analysis.exitCode = 0) ∧
      (brew.exitCode = 0 ↔ (Text.lines validate.stdout).getLast? = some "Valid: true") ∧
      (brew.exitCode = 0 → attempt.succeeded = true ∧ brew.stderr = "" ∧
        brew.stdout = brewedLines m order ++ analysis.stdout ++ "\n" ++
          attempt.machine.status.text ++ "\n") ∧
      (brew.exitCode ≠ 0 → brew.exitCode = 1 ∧ brew.stdout = analysis.stdout ∧
        ∃ failed, attempt.result = .error (.preconditionsFailed .brew failed) ∧
          brew.stderr = "Error: brewing failed\n\nCaused by:\n    " ++
            Fault.message (.preconditionsFailed .brew failed) ++ "\n" ∧
          (Text.lines validate.stdout).filter (Text.endsWith ": NOT MET") =
            failed.map unmetLine) := by
  obtain ⟨hmade, htotal⟩ : m.drinksMade = 0 ∧ m.totalDrinksMade = 0 := by
    obtain ⟨-, rfl⟩ := MachineOptions.build_eq_ok hbuild
    exact ⟨rfl, rfl⟩
  intro output validate analysis brew attempt
  have houtput : ∀ command, output command = (command.run key options.policy m).output :=
    fun command => congrArg Run.output (Invocation.run_of_build key hbuild)
  have hvalidate : validate = ⟨0, (runValidate options.policy m order).printed, ""⟩ :=
    houtput (.validate order)
  have hlines := lines_runValidate options.policy m order
  rw [show attempt = order.brew options.policy 0 m from Order.brew_start .., hvalidate, hlines,
    List.getLast?_concat, Option.some.injEq]
  rcases runBrew_cases options.policy order price (by rw [hmade]; decide) (by rw [htotal]; decide) with
    ⟨hmet, report, text, hresult, hreport, hdone⟩ | ⟨hmet, text, hresult, hreport, hdone⟩
  · have hanalysis : analysis = ⟨0, text, ""⟩ :=
      (houtput (.analyse order price)).trans (congrArg Run.output hreport)
    have hbrew : brew = ⟨0, brewedLines m order ++ text ++ "\n" ++
        (order.brew options.policy 0 m).machine.status.text ++ "\n", ""⟩ :=
      (houtput (.brew order price)).trans (congrArg Run.output hdone)
    rw [hanalysis, hbrew, hmet]
    refine ⟨⟨rfl, rfl⟩, ⟨fun _ => rfl, fun _ => rfl⟩, fun _ => ⟨?_, rfl, rfl⟩, fun h => absurd rfl h⟩
    rw [Attempt.succeeded, hresult]
    rfl
  · have hanalysis : analysis = ⟨0, text, ""⟩ :=
      (houtput (.analyse order price)).trans (congrArg Run.output hreport)
    have hbrew : brew = ⟨1, text, (Failure.during "brewing failed" (.preconditionsFailed .brew
        (order.preconditions options.policy m).failed)).text⟩ :=
      (houtput (.brew order price)).trans (congrArg Run.output hdone)
    rw [hanalysis, hbrew, hmet]
    refine ⟨⟨rfl, rfl⟩, ⟨fun h => absurd h Nat.one_ne_zero, fun h => absurd h (by decide)⟩,
      fun h => absurd h Nat.one_ne_zero, fun _ => ⟨rfl, rfl, _, hresult, ?_, ?_⟩⟩
    · exact text_during_brewing _
    · rw [List.filter_append, filter_conditionLines,
        show [s!"Valid: {false}"].filter (Text.endsWith ": NOT MET") = [] by decide, List.append_nil]

/-- A delivered machine under the strict policy makes a latte, and no espresso with milk, both at a
price that is no number. -/
theorem brew_agrees_strict :
    let options : MachineOptions := ⟨Machine.fresh.stock, 95, 15, 0, true⟩
    let output (command : Command) : Output :=
      (Invocation.run (Random.Key.ofSeed 0) ⟨options, command⟩).output
    (output (.brew ⟨.latte, 3, true⟩ .nan)).exitCode = 0 ∧
      (output (.brew ⟨.espresso, 0, true⟩ .nan)).exitCode = 1 ∧
      (output (.brew ⟨.espresso, 0, true⟩ .nan)).stdout =
        (output (.analyse ⟨.espresso, 0, true⟩ .nan)).stdout ∧
      (Text.lines (output (.validate ⟨.espresso, 0, true⟩)).stdout).filter
        (Text.endsWith ": NOT MET") = ["  - milk compatible with drink: NOT MET"] := by
  intro options output
  have hbuild : options.build = .ok .fresh := by decide +kernel
  have hlast : ∀ order, (Text.lines (output (.validate order)).stdout).getLast? =
      some s!"Valid: {(order.preconditions .strict .fresh).allMet}" := by
    intro order
    have hstdout : (output (.validate order)).stdout = (runValidate .strict .fresh order).printed :=
      congrArg (·.output.stdout) (Invocation.run_of_build _ hbuild)
    rw [hstdout, lines_runValidate, List.getLast?_concat]
  have hvalid : (Text.lines (output (.validate ⟨.latte, 3, true⟩)).stdout).getLast? =
      some "Valid: true" := (hlast _).trans (by decide +kernel)
  have hinvalid : (Text.lines (output (.validate ⟨.espresso, 0, true⟩)).stdout).getLast? ≠
      some "Valid: true" := by
    rw [hlast]
    decide +kernel
  obtain ⟨-, hlatte, -⟩ := brew_agrees (Random.Key.ofSeed 0) hbuild ⟨.latte, 3, true⟩ .nan 0
  obtain ⟨-, hespresso, -, hrefused⟩ :=
    brew_agrees (Random.Key.ofSeed 0) hbuild ⟨.espresso, 0, true⟩ .nan 0
  obtain ⟨hcode, hprinted, failed, hresult, -, hlisted⟩ :=
    hrefused fun h => hinvalid (hespresso.1 h)
  have hfailed : failed = ["milk compatible with drink"] := by
    have hbrew : (Order.brew .strict ⟨.espresso, 0, true⟩ 0 .fresh).result =
        .error (.preconditionsFailed .brew ["milk compatible with drink"]) := by decide +kernel
    cases hresult.symm.trans hbrew
    rfl
  refine ⟨hlatte.2 hvalid, hcode, hprinted, ?_⟩
  rw [hlisted, hfailed]
  decide

end Barista.CommandLine
