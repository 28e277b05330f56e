/-
What must hold before an order so that it can be brewed: the weakest
precondition, as a conjunction of the brewing preconditions, enough of every
resource, and bounds on time and cost.

The postconditions of the brew are carried along for the report, and neither
the formula nor the verdict looks at them. The time here is that of an ideal
machine, so it leaves wear and temperature out.
-/
import Barista.Order

namespace Barista.WeakestPrecondition

/-- Prices by name. -/
abbrev Prices := List (String × Binary64)

/-- All that the analysis of one order looks at. -/
structure Request where
  preconditions : Conditions
  postconditions : Conditions
  drink : Drink
  sugar : Count
  resources : List StockCheck
  prices : Prices

/-! ## Time and cost -/

/-- Seconds that no brew may reach. -/
def maxTime : Binary64 := 60

/-- The price that no order may reach. -/
def maxCost : Binary64 := 500

/-- The name of the price that every order includes. -/
def baseKey : String := "base"

def pricesWithBase (base : Binary64) : Prices := [(baseKey, base)]

def defaultPrices : Prices := pricesWithBase 20

/-- Above zero and below the bound; NaN is neither. -/
def within (value bound : Binary64) : Bool := 0 < value && value < bound

/-- The time that portions of sugar take. -/
def sugarTime (sugar : Count) : Binary64 := Binary64.ofNat sugar.toNat * 0.5

def sugarPrice (sugar : Count) : Binary64 := Binary64.ofNat sugar.toNat * 5

/-- The brewing time on top of a base time, on an ideal machine. -/
def totalTime (drink : Drink) (sugar : Count) (base : Binary64) : Binary64 :=
  let time := base + drink.brewBonus
  if 0 < sugar then time + sugarTime sugar else time

def basePrice (prices : Prices) : Except Fault Binary64 :=
  match prices.lookup baseKey with
  | some price => .ok price
  | none => .error (.missingPrice baseKey)

def totalCost (drink : Drink) (sugar : Count) (prices : Prices) : Except Fault Binary64 := do
  let cost := (← basePrice prices) + drink.surcharge
  return if 0 < sugar then cost + sugarPrice sugar else cost

/-! ## The formula and its verdict -/

/-- Every resource suffices. -/
def sufficient (resources : List StockCheck) : Bool := resources.all (·.satisfied)

namespace Request

def time (r : Request) : Binary64 := totalTime r.drink r.sugar Machine.baseBrewTime

def cost (r : Request) : Except Fault Binary64 := totalCost r.drink r.sugar r.prices

/-- The four parts of the conjunction for a cost, in the order of the report. -/
def parts (r : Request) (cost : Binary64) : List Bool :=
  [ r.preconditions.allMet, sufficient r.resources, within r.time maxTime, within cost maxCost ]

/-- Whether the weakest precondition holds. -/
def verdict (r : Request) : Except Fault Bool := do
  return (r.parts (← r.cost)).all id

/-- Names in brackets, joined by "and"; nothing at all is true. -/
def conjunction (names : List String) : String :=
  if names.isEmpty then "TRUE" else " ∧ ".intercalate (names.map fun name => s!"({name})")

/-- The weakest precondition as a formula. -/
def formula (r : Request) : String :=
  let resources := r.resources.map fun check => check.name ++ "_available"
  " ∧ ".intercalate
    [ conjunction r.preconditions.names, conjunction resources,
      s!"(0 < totalTime < {maxTime.fixed 0})", s!"(0 < totalCost < {maxCost.fixed 0})" ]

end Request

end Barista.WeakestPrecondition

namespace Barista

/-- The analysis of an order on a machine, with the postconditions that its brewing has or would
have. -/
def Order.analysis (policy : MilkPolicy) (o : Order) (m : Machine) (postconditions : Conditions)
    (prices : WeakestPrecondition.Prices) : WeakestPrecondition.Request where
  preconditions := o.preconditions policy m
  postconditions := postconditions
  drink := o.drink
  sugar := o.sugar
  resources := o.stockChecks m
  prices := prices

end Barista
