/-
The weakest precondition report as text: a section for the preconditions, the
resources, the time, the cost and the postconditions, then the formula, the
verdict and the six steps that lead to it.

Each section is a list of lines, and `Request.report` puts them together in
order with an empty line after each but the last.
-/
import Barista.Text.Columns
import Barista.Text.Lines
import Barista.WeakestPrecondition.Basic

namespace Barista.WeakestPrecondition

/-- How a bound or a conjunction is reported. -/
def holds (ok : Bool) : String := if ok then "HOLDS" else "VIOLATED"

/-! ## Sections -/

def heading (title : String) : List String := [title ++ ":", Text.repeated '-' (title.length + 1)]

/-- Conditions one by one, and whether all are met. -/
def conditionLines (title : String) (c : Conditions) : List String :=
  let line (entry : String × Bool) := s!"  - {entry.1}: " ++ if entry.2 then "MET" else "NOT MET"
  let result := if c.allMet then "ALL CONDITIONS MET" else "SOME CONDITIONS NOT MET"
  heading title ++ c.entries.map line ++ ["", "RESULT: " ++ result]

def preconditionSection (c : Conditions) : String :=
  Text.unlines (conditionLines "PRECONDITIONS" c)

def postconditionSection (c : Conditions) : String :=
  Text.unlines (conditionLines "POSTCONDITIONS" c)

/-- Resources one by one, whether the order is possible, and whether no level is negative. -/
def resourceLines (resources : List StockCheck) : List String :=
  let line (check : StockCheck) :=
    s!"  - {check.name}: {check.current}/{check.required} " ++
      if check.satisfied then "SUFFICIENT" else "INSUFFICIENT"
  let result :=
    if sufficient resources then "ORDER POSSIBLE" else "ORDER IMPOSSIBLE - insufficient resources"
  heading "ORDER FEASIBILITY" ++ resources.map line ++
    [ "", "RESULT: " ++ result, "", "INVARIANT: all resources >= 0",
      "   " ++ holds (resources.all fun check => 0 ≤ check.current) ]

def resourceSection (resources : List StockCheck) : String := Text.unlines (resourceLines resources)

/-- How the brewing time comes about, and whether it is within its bound. -/
def timeLines (drink : Drink) (sugar : Count) (base : Binary64) : List String :=
  let total := totalTime drink sugar base
  let sugarLine := s!"    +{(sugarTime sugar).fixed 1} s (sugar: {sugar} portions)"
  heading "BREW TIME CALCULATION" ++
    [ s!"  - Base time: {base.fixed 1} s",
      "  - Contributions:",
      s!"    +{drink.brewBonus.fixed 1} s ({drink.name} - {drink.brewNote})" ] ++
    (if 0 < sugar then [sugarLine] else []) ++
    [ "", s!"  - TOTAL TIME: {total.fixed 1} s",
      "", s!"INVARIANT: time > 0 && time < {maxTime.fixed 0} s",
      "   " ++ holds (within total maxTime) ]

def timeTrace (drink : Drink) (sugar : Count) (base : Binary64) : String :=
  Text.unlines (timeLines drink sugar base)

/-- How the cost comes about, and whether it is within its bound. -/
def costLines (drink : Drink) (sugar : Count) (prices : Prices) : Except Fault (List String) := do
  let base ← basePrice prices
  let total ← totalCost drink sugar prices
  let sugarLine := s!"    +{(sugarPrice sugar).fixed 2} (sugar: {sugar} portions)"
  return heading "COST CALCULATION" ++
    [ s!"  - Base price: {base.fixed 2}",
      "  - Components:",
      s!"    +{drink.surcharge.fixed 2} ({drink.name})" ] ++
    (if 0 < sugar then [sugarLine] else []) ++
    [ "", s!"  - TOTAL COST: {total.fixed 2}",
      "", s!"INVARIANT: cost > 0 && cost < {maxCost.fixed 0}",
      "   " ++ holds (within total maxCost) ]

def costTrace (drink : Drink) (sugar : Count) (prices : Prices) : Except Fault String := do
  return Text.unlines (← costLines drink sugar prices)

/-! ## The report -/

namespace Request

def stepLines (r : Request) (cost : Binary64) (verdict : Bool) : List String :=
  let c := r.preconditions
  let enough := r.resources.countP (·.satisfied)
  let wanted := r.resources.length
  [ s!"1. Preconditions: {c.metCount}/{c.size} met -> {holds c.allMet}",
    s!"2. Resources: {enough}/{wanted} sufficient -> {holds (sufficient r.resources)}",
    s!"3. Brew time: 0 < {r.time.fixed 1} < {maxTime.fixed 0} -> {holds (within r.time maxTime)}",
    s!"4. Cost: 0 < {cost.fixed 2} < {maxCost.fixed 0} -> {holds (within cost maxCost)}",
    s!"5. Formula: conjunction of {c.size} preconditions, {wanted} resources and 2 bounds",
    s!"6. Verdict: {holds verdict}" ]

/-- The full report. It needs the base price and nothing else. -/
def report (r : Request) : Except Fault String := do
  let cost ← r.cost
  let verdict ← r.verdict
  let costTrace ← costTrace r.drink r.sugar r.prices
  return String.join
    [ Text.unlines ["FULL WP ANALYSIS OF THE BREWING ALGORITHM", Text.repeated '=' 41, ""],
      preconditionSection r.preconditions, "\n",
      resourceSection r.resources, "\n",
      timeTrace r.drink r.sugar Machine.baseBrewTime, "\n",
      costTrace, "\n",
      postconditionSection r.postconditions,
      Text.unlines ["", s!"WP FORMULA: {r.formula}"],
      Text.unlines ["", s!"OVERALL WP VERDICT: {holds verdict}"],
      Text.unlines ("" :: "STEP-BY-STEP:" :: r.stepLines cost verdict) ]

end Request

end Barista.WeakestPrecondition
