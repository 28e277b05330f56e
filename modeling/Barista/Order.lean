/-
An order, and what must hold before it can be brewed.
-/
import Barista.Conditions
import Barista.Machine.Basic

namespace Barista

/-- Whether milk may go into black coffees. -/
inductive MilkPolicy where
  | permissive
  | strict
deriving DecidableEq, Inhabited

structure Order where
  drink : Drink
  sugar : Count
  milk : Bool
deriving DecidableEq

/-- Whether the stock of one resource suffices for an order. -/
structure StockCheck where
  name : String
  current : Int
  required : Int
  satisfied : Bool
deriving DecidableEq

/-- The conditions of every operation but maintenance, in the order they are reported. -/
def Machine.operational (m : Machine) : List (String × Bool) :=
  [ ("machine not broken", !m.isBroken),
    ("machine not brewing", !m.isBrewing),
    ("waste level not critical", m.waste < Machine.criticalWaste) ]

namespace Order

/-- The milk that goes into the order. -/
def milkUsed (o : Order) : Count := if o.milk then o.drink.recipe.milk else 0

/-- Every condition of brewing on a machine. Milk is asked for only if the order has some. -/
def preconditions (policy : MilkPolicy) (o : Order) (m : Machine) : Conditions :=
  let recipe := o.drink.recipe
  let supplies : List (String × Bool) :=
    [ ("enough water", recipe.water ≤ m.stock.water),
      ("enough coffee", recipe.coffee ≤ m.stock.coffee),
      ("enough milk", !o.milk || recipe.milk ≤ m.stock.milk),
      ("cups available", 0 < m.stock.cups),
      ("enough sugar", o.sugar ≤ m.stock.sugar) ]
  let compatible : List (String × Bool) := match policy with
    | .permissive => []
    | .strict => [("milk compatible with drink", !(o.milk && o.drink.isBlack))]
  Conditions.ofList (m.operational ++ supplies ++ compatible)

/-- What the order takes of each resource beside what there is. -/
def stockChecks (o : Order) (m : Machine) : List StockCheck :=
  let recipe := o.drink.recipe
  let check (name : String) (current required : Count) (satisfied : Bool) : StockCheck :=
    ⟨name, current.toNat, required.toNat, satisfied⟩
  [ check "water" m.stock.water recipe.water (recipe.water ≤ m.stock.water),
    check "coffee" m.stock.coffee recipe.coffee (recipe.coffee ≤ m.stock.coffee),
    check "milk" m.stock.milk recipe.milk (!o.milk || recipe.milk ≤ m.stock.milk),
    check "cups" m.stock.cups 1 (0 < m.stock.cups),
    check "sugar" m.stock.sugar o.sugar (o.sugar ≤ m.stock.sugar) ]

end Order

end Barista
