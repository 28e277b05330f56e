/-
Carrying out a command line: what it prints, and how it fails.

Each command prints text and may fail after some of it. `Run.output` says what
the program writes to its two streams and with which code it ends.
-/
import Barista.CommandLine.Command
import Barista.Cycle.Report
import Barista.Status
import Barista.Text.Columns
import Barista.WeakestPrecondition.Report

namespace Barista.CommandLine

/-- Why a command failed. -/
inductive Failure where
  | temperature (value : Binary64)
  | wear (value : Binary64)
  | fault (cause : Fault)
  /-- A fault in the course of something larger. -/
  | during (activity : String) (cause : Fault)
deriving DecidableEq

def Failure.text : Failure → String
  | .temperature value => s!"Error: --temperature must be a finite number, got {value.plain}\n"
  | .wear value => s!"Error: --wear must be between 0 and 100, got {value.plain}\n"
  | .fault cause => s!"Error: {cause.message}\n"
  | .during activity cause => s!"Error: {activity}\n\nCaused by:\n    {cause.message}\n"

/-- What the program writes, and the code it ends with. -/
structure Output where
  exitCode : Nat
  stdout : String
  stderr : String
deriving DecidableEq

/-- What a command printed, and why it failed if it did. -/
structure Run where
  printed : String
  failure : Option Failure

namespace Run

def success (printed : String) : Run := ⟨printed, none⟩

def failed (printed : String) (failure : Failure) : Run := ⟨printed, some failure⟩

def after (printed : String) (r : Run) : Run := { r with printed := printed ++ r.printed }

/-- What can be made of a result, or its fault. -/
def ofExcept {α : Type} (make : α → Run) : Except Fault α → Run
  | .ok value => make value
  | .error cause => failed "" (.fault cause)

/-- Success ends with 0, and a command that failed with 1. -/
def output (r : Run) : Output :=
  match r.failure with
  | none => ⟨0, r.printed, ""⟩
  | some failure => ⟨1, r.printed, failure.text⟩

end Run

/-! ## The machine -/

def MachineOptions.policy (o : MachineOptions) : MilkPolicy :=
  if o.strictMilk then .strict else .permissive

/-- The machine that the options describe. -/
def MachineOptions.build (o : MachineOptions) : Except Failure Machine :=
  if !o.temperature.isFinite then .error (.temperature o.temperature)
  else if !(0 ≤ o.wear && o.wear ≤ 100) then .error (.wear o.wear)
  else
    let m := { Machine.fresh with stock := o.stock, temperature := o.temperature }
    .ok ((m.setWaste o.waste).increaseWear o.wear)

theorem MachineOptions.build_eq_ok {o : MachineOptions} {m : Machine} (h : o.build = .ok m) :
    0 ≤ o.wear ∧ m = (({ Machine.fresh with stock := o.stock, temperature := o.temperature } :
      Machine).setWaste o.waste).increaseWear o.wear := by
  unfold build at h
  split at h
  · cases h
  · split at h
    · cases h
    · next hwear =>
      cases h
      simp only [Bool.not_eq_true', Bool.not_eq_false, Bool.and_eq_true, decide_eq_true_eq] at hwear
      exact ⟨hwear.1, rfl⟩

/-! ## The commands -/

/-- The drinks and what they take, as a table. -/
def recipeTable : String :=
  let header := Text.padRight 12 "Drink" ++ " " ++ Text.padLeft 10 "Water" ++ " " ++
    Text.padLeft 10 "Coffee" ++ " " ++ Text.padLeft 10 "Milk"
  let row (d : Drink) :=
    let r := d.recipe
    d.name ++ " " ++ Text.padLeft 8 (toString r.water) ++ "ml " ++
      Text.padLeft 9 (toString r.coffee) ++ "g " ++ Text.padLeft 8 (toString r.milk) ++ "ml"
  Text.unlines (header :: Text.repeated '-' 45 :: Drink.menu.map row)

/-- Prints the weakest precondition report of an order. -/
def printAnalysis (policy : MilkPolicy) (m : Machine) (order : Order) (price : Binary64)
    (postconditions : Conditions) : Run :=
  let request := order.analysis policy m postconditions (WeakestPrecondition.pricesWithBase price)
  .ofExcept (fun report => .success (report ++ "\n")) request.report

def runValidate (policy : MilkPolicy) (m : Machine) (order : Order) : Run :=
  let conditions := order.preconditions policy m
  .success (WeakestPrecondition.preconditionSection conditions ++ s!"Valid: {conditions.allMet}\n")

def runAnalyse (policy : MilkPolicy) (m : Machine) (order : Order) (price : Binary64) : Run :=
  .ofExcept (printAnalysis policy m order price) (order.preview policy 0 m)

/-- A brew that succeeds is followed by its report and the machine's status; one that does not, by
the report of what would have been. -/
def runBrew (policy : MilkPolicy) (m : Machine) (order : Order) (price : Binary64) : Run :=
  let attempt := order.brew policy 0 m
  match attempt.result with
  | .ok report =>
    let headline := s!"Brewed {report.order.drink.name} in {report.brewTime.fixed 1} s " ++
      s!"(wear +{report.wearAdded.fixed 2})\n\n"
    let analysis := (printAnalysis policy m order price report.postconditions).after headline
    match analysis.failure with
    | none => .success (analysis.printed ++ "\n" ++ attempt.machine.status.text ++ "\n")
    | some _ => analysis
  | .error cause =>
    let analysis := runAnalyse policy m order price
    match analysis.failure with
    | none => .failed analysis.printed (.during "brewing failed" cause)
    | some _ => analysis

def runRefill (m : Machine) (wanted : Refill) : Run :=
  let required := WeakestPrecondition.preconditionSection (wanted.preconditions m)
  match (wanted.perform m).result with
  | .ok r =>
    let headline := s!"\nRefilled {r.ingredient.name}: {r.before} -> {r.after} " ++
      s!"{r.ingredient.unit} (+{r.added})\n\n"
    .success (required ++ headline ++ WeakestPrecondition.postconditionSection r.postconditions)
  | .error cause => .failed required (.during "refill failed" cause)

def runMaintain (m : Machine) (wanted : Maintenance) : Run :=
  let required := WeakestPrecondition.preconditionSection (Maintenance.preconditions m)
  let attempt := wanted.perform m
  match attempt.result with
  | .ok r =>
    let headline := s!"\nMaintenance ({r.request.service.name}): wear {r.wearBefore.fixed 1} -> " ++
      s!"{r.wearAfter.fixed 1}\n\n"
    .success (required ++ headline ++ WeakestPrecondition.postconditionSection r.postconditions ++
      "\n" ++ attempt.machine.status.text ++ "\n")
  | .error cause => .failed required (.during "maintenance failed" cause)

def printCycle (json : Bool) (d : Description) (a : Analysis) : Run :=
  .success (if json then a.json.pretty 0 ++ "\n" else a.report d)

/-- Runs a process. Without a seed, `key` is where random tests draw from. -/
def runCycle (key : Random.Key) (json : Bool) : Cycle → Run
  | .heating h => .ofExcept (printCycle json h.description) h.process.analyze
  | .cleaning c => .ofExcept (printCycle json c.description) c.process.analyze
  | .dispensers count failures seed passRate =>
    if failures.isEmpty then
      let key := match seed with
        | some seed => Random.Key.ofSeed (UInt64.ofNat seed)
        | none => key
      match Random.Tester.create key passRate with
      | .ok tester =>
        let t := SelfTest.random count tester
        .ofExcept (printCycle json t.description) t.process.analyze
      | .error cause => .failed "" (.fault cause)
    else
      let t := SelfTest.failing count failures
      .ofExcept (printCycle json t.description) t.process.analyze

/-- Carries out a command on a machine. -/
def Command.run (key : Random.Key) (policy : MilkPolicy) (m : Machine) : Command → Run
  | .status => .success (m.status.text ++ "\n")
  | .recipes => .success recipeTable
  | .brewTime drink sugar =>
    .success s!"{drink.name} with {sugar} sugar: {(m.brewTime drink sugar).fixed 1} s\n"
  | .validate order => runValidate policy m order
  | .analyse order price => runAnalyse policy m order price
  | .brew order price => runBrew policy m order price
  | .refill wanted => runRefill m wanted
  | .maintain wanted => runMaintain m wanted
  | .cycle process json => runCycle key json process

/-- Builds the machine and carries out the command on it. -/
def Invocation.run (key : Random.Key) (i : Invocation) : Run :=
  match i.machine.build with
  | .ok m => i.command.run key i.machine.policy m
  | .error failure => .failed "" failure

/-! ## The program -/

def usage : String :=
  "Usage: barista [OPTIONS] COMMAND\n\nCommands: " ++ ", ".intercalate (commandRules.map (·.1)) ++
    "\nProcesses of cycle: " ++ ", ".intercalate (cycleRules.map (·.1)) ++ "\n"

/-- Carries out a command line; arguments that do not fit end with 2. -/
def respond (key : Random.Key) (args : List String) : Output :=
  match parse? args with
  | none => ⟨2, "", usage⟩
  | some invocation => (invocation.run key).output

end Barista.CommandLine
