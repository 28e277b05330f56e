/-
Refilling an ingredient, by an amount or up to its capacity.
-/
import Barista.Attempt
import Barista.Order

namespace Barista

inductive RefillAmount where
  | exact (amount : Count)
  | toCapacity
deriving DecidableEq

structure Refill where
  ingredient : Ingredient
  amount : RefillAmount
deriving DecidableEq

structure RefillReport where
  ingredient : Ingredient
  before : Count
  after : Count
  added : Count
  postconditions : Conditions
deriving DecidableEq

namespace Refill

/-- How much of the ingredient still fits. -/
def available (r : Refill) (m : Machine) : Count :=
  r.ingredient.capacity.minusFloored (m.stock.level r.ingredient)

def preconditions (r : Refill) (m : Machine) : Conditions :=
  let room : List (String × Bool) := match r.amount with
    | .exact amount =>
      [("amount positive", 0 < amount), ("within capacity", amount ≤ r.available m)]
    | .toCapacity => [("capacity available", 0 < r.available m)]
  Conditions.ofList (m.operational ++ room)

def added (r : Refill) (m : Machine) : Except Fault Count :=
  match r.amount with
  | .exact amount => .ok amount
  | .toCapacity => r.ingredient.capacity.minus (m.stock.level r.ingredient)

/-- What held after the refill, seen from the level before and after. -/
def postconditions (r : Refill) (before added after : Count) : Except Fault Conditions := do
  let expected ← before.plus added
  return Conditions.ofList
    [ ("amount added", after = expected), ("within capacity", after ≤ r.ingredient.capacity) ]

/-- The report on the refill, and the machine afterwards. -/
def carryOut (r : Refill) (m : Machine) : Except Fault (RefillReport × Machine) := do
  let before := m.stock.level r.ingredient
  let added ← r.added m
  let after ← before.plus added
  let postconditions ← r.postconditions before added after
  return (⟨r.ingredient, before, after, added, postconditions⟩,
    { m with stock := m.stock.setLevel r.ingredient after })

/-- Refills the ingredient. -/
def perform (r : Refill) (m : Machine) : Attempt RefillReport :=
  .guarded .refill (r.preconditions m) m (r.carryOut m)

end Refill

end Barista
