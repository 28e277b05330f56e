/-
Everything that can be done to a machine, as values.

A `Request` is an operation with preconditions; it reports or is refused. An
`Action` is a request or a direct change of the machine, such as new stock, wear,
or a tick of the timer. A session applies actions one after another to the
machine that the last one left; a refusal changes nothing and the session goes
on, an overflow ends it.
-/
import Barista.Brewing
import Barista.Maintenance.Basic
import Barista.Refill

namespace Barista

/-- An operation that the machine may refuse. -/
inductive Request where
  /-- Brews the order from an instant on. -/
  | brew (policy : MilkPolicy) (order : Order) (start : Nat)
  | refill (wanted : Refill)
  | maintain (wanted : Maintenance)
deriving DecidableEq

/-- What a request reports. -/
inductive Report where
  | brewed (report : BrewReport)
  | refilled (report : RefillReport)
  | serviced (report : MaintenanceReport)
deriving DecidableEq

def Attempt.map {α β : Type} (f : α → β) (a : Attempt α) : Attempt β := ⟨a.result.map f, a.machine⟩

def Request.perform (m : Machine) : Request → Attempt Report
  | .brew policy order start => (order.brew policy start m).map .brewed
  | .refill wanted => (wanted.perform m).map .refilled
  | .maintain wanted => (wanted.perform m).map .serviced

/-- A value put directly into the machine. -/
inductive Setting where
  | level (ingredient : Ingredient) (amount : Count)
  | temperature (degrees : Binary64)
  | drinksMade (count : Count)
  | totalDrinksMade (count : Count)
  | maintenanceCount (count : Count)
deriving DecidableEq

def Setting.apply (m : Machine) : Setting → Machine
  | .level ingredient amount => { m with stock := m.stock.setLevel ingredient amount }
  | .temperature degrees => { m with temperature := degrees }
  | .drinksMade count => { m with drinksMade := count }
  | .totalDrinksMade count => { m with totalDrinksMade := count }
  | .maintenanceCount count => { m with maintenanceCount := count }

/-- A direct change of the machine, which nothing refuses. -/
inductive Change where
  | set (settings : List Setting)
  | setWaste (level : Count)
  | addWaste (amount : Count)
  | increaseWear (amount : Binary64)
  | reduceWear (amount : Binary64)
  | startBrewing (total : Binary64) (now : Nat)
  | updateBrewing (now : Nat)
  | completeBrewing
deriving DecidableEq

def Change.apply (m : Machine) : Change → Machine
  | .set settings => settings.foldl Setting.apply m
  | .setWaste level => m.setWaste level
  | .addWaste amount => m.addWaste amount
  | .increaseWear amount => m.increaseWear amount
  | .reduceWear amount => m.reduceWear amount
  | .startBrewing total now => m.startBrewing total now
  | .updateBrewing now => m.updateBrewing now
  | .completeBrewing => m.completeBrewing

inductive Action where
  | request (wanted : Request)
  | change (made : Change)
deriving DecidableEq

/-- What an action comes to: a request's report, or nothing to report. -/
def Action.perform (m : Machine) : Action → Attempt (Option Report)
  | .request wanted => (wanted.perform m).map some
  | .change made => .done none (made.apply m)

/-- A count did not fit, which ends a session. -/
def Fault.isOverflow : Fault → Bool
  | .additionOverflow | .subtractionOverflow => true
  | _ => false

/-- The machine after a session, if no overflow ended it. -/
def Machine.after (m : Machine) : List Action → Option Machine
  | [] => some m
  | action :: rest =>
    let attempt := action.perform m
    match attempt.result with
    | .ok _ => attempt.machine.after rest
    | .error fault => if fault.isOverflow then none else attempt.machine.after rest

end Barista
