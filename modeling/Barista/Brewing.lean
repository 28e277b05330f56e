/-
Brewing a drink.

`Order.brew` checks every precondition, runs the timer from start to end, takes
what the drink needs from the stock, counts the drink, and adds waste and wear.
Then it looks at the machine before and after and reports what held. An order
whose preconditions fail leaves the machine as it was.
-/
import Barista.Attempt
import Barista.Order

namespace Barista

structure BrewReport where
  order : Order
  /-- Seconds. -/
  brewTime : Binary64
  wearAdded : Binary64
  postconditions : Conditions
deriving DecidableEq

namespace Order

def postconditionNames : List String :=
  ["drink made", "resources consumed", "drink counter increased", "waste increased"]

/-- Waste of one drink, in percent of the tank. -/
def wastePerDrink : Count := 2

def wear (o : Order) : Binary64 :=
  let wear := 0.5 + o.drink.wear
  let wear := if 0 < o.sugar then wear + 0.1 * Binary64.ofNat o.sugar.toNat else wear
  if o.milk then wear + 0.2 else wear

/-- The stock less what the order takes. -/
def consume (o : Order) (s : Stock) : Except Fault Stock := do
  let recipe := o.drink.recipe
  let water ← s.water.minus recipe.water
  let coffee ← s.coffee.minus recipe.coffee
  let milk ← s.milk.minus o.milkUsed
  let sugar ← s.sugar.minus o.sugar
  let cups ← s.cups.minus 1
  return { water, coffee, milk, cups, sugar }

/-- The machine with the order brewed, nothing checked but that every count fits. -/
def perform (o : Order) (start : Nat) (m : Machine) : Except Fault Machine := do
  let timer := BrewTimer.run (m.brewTime o.drink o.sugar) start
  let stock ← o.consume m.stock
  let drinksMade ← m.drinksMade.plus 1
  let totalDrinksMade ← m.totalDrinksMade.plus 1
  let m := { m with timer, stock, drinksMade, totalDrinksMade }
  return (m.addWaste wastePerDrink).increaseWear o.wear

/-- What held after the order was brewed, seen from the machine before and after. -/
def postconditions (o : Order) (before after : Machine) : Except Fault Conditions := do
  let expected ← o.consume before.stock
  let counted ← before.drinksMade.plus 1
  let held : List Bool :=
    [ !after.isBrewing && before.brewTime o.drink o.sugar ≤ after.timer.elapsed,
      after.stock = expected,
      after.drinksMade = counted,
      before.waste < after.waste ]
  return Conditions.ofList (postconditionNames.zip held)

/-- The report on the order brewed, and the machine afterwards. -/
def carryOut (o : Order) (start : Nat) (m : Machine) : Except Fault (BrewReport × Machine) := do
  let after ← o.perform start m
  let postconditions ← o.postconditions m after
  return (⟨o, m.brewTime o.drink o.sugar, o.wear, postconditions⟩, after)

/-- Brews the order, from the instant `start` on. -/
def brew (policy : MilkPolicy) (o : Order) (start : Nat) (m : Machine) : Attempt BrewReport :=
  .guarded .brew (o.preconditions policy m) m (o.carryOut start m)

/-- The postconditions that brewing would have; all unmet if it would be refused. -/
def preview (policy : MilkPolicy) (o : Order) (start : Nat) (m : Machine) :
    Except Fault Conditions :=
  match (o.brew policy start m).result with
  | .ok report => .ok report.postconditions
  | .error (.preconditionsFailed ..) => .ok (Conditions.ofList (postconditionNames.map (·, false)))
  | .error fault => .error fault

end Order

end Barista
