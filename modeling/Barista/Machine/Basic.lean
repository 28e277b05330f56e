/-
One coffee machine: its stock, its counters, its waste, its wear and its timer.

Waste is kept at 100 percent or below, wear between 0 and 100; health is
worked out anew whenever the wear changes. A NaN amount of wear is taken
as the bound it was headed for.
-/
import Barista.Drink
import Barista.Ingredient
import Barista.Machine.Timer

namespace Barista

structure Machine where
  stock : Stock
  temperature : Binary64
  drinksMade : Count
  totalDrinksMade : Count
  maintenanceCount : Count
  /-- How full the waste tank is, in percent. -/
  waste : Count
  wear : Binary64
  /-- The health of the components, in percent. -/
  health : Count
  timer : BrewTimer
deriving DecidableEq

namespace Machine

def fresh : Machine where
  stock := ⟨1000, 500, 1000, 50, 200⟩
  temperature := 95
  drinksMade := 0
  totalDrinksMade := 0
  maintenanceCount := 0
  waste := 15
  wear := 0
  health := 100
  timer := .idle

instance : Inhabited Machine := ⟨fresh⟩

/-- From this much waste on nothing is brewed or refilled. -/
def criticalWaste : Count := 90

def isBroken (m : Machine) : Bool := 100 ≤ m.wear

def needsMaintenance (m : Machine) : Bool := 70 < m.wear

def isBrewing (m : Machine) : Bool := m.timer.running

/-! ## Waste -/

/-- A new waste level, at most 100 percent. -/
def setWaste (level : Count) (m : Machine) : Machine :=
  { m with waste := if level ≤ 100 then level else 100 }

def addWaste (amount : Count) (m : Machine) : Machine := m.setWaste (m.waste.plusCapped amount)

/-! ## Wear -/

/-- The health that a level of wear leaves. -/
def healthAt (wear : Binary64) : Count :=
  UInt32.ofNat ((100 - wear.floor).clamp 0 100).wholePart

def setWear (wear : Binary64) (m : Machine) : Machine := { m with wear, health := healthAt wear }

def increaseWear (amount : Binary64) (m : Machine) : Machine :=
  m.setWear ((m.wear + amount).least 100)

def reduceWear (amount : Binary64) (m : Machine) : Machine :=
  m.setWear ((m.wear - amount).greatest 0)

/-! ## Timer -/

def startBrewing (total : Binary64) (now : Nat) (m : Machine) : Machine :=
  { m with timer := .started total now }

def updateBrewing (now : Nat) (m : Machine) : Machine := { m with timer := m.timer.update now }

def completeBrewing (m : Machine) : Machine := { m with timer := m.timer.complete }

/-! ## Brewing time -/

/-- Seconds that any drink takes before additions. -/
def baseBrewTime : Binary64 := 10

/-- The time for a drink with sugar: worn machines are slower, and so are cold and overheated ones.
It is given to a tenth of a second. -/
def brewTime (m : Machine) (drink : Drink) (sugar : Count) : Binary64 :=
  let time := baseBrewTime + drink.brewBonus
  let time := if 0 < sugar then time + Binary64.ofNat sugar.toNat * 0.5 else time
  let time := if 50 < m.wear then time + m.wear * 0.1 else time
  let time := if m.temperature < 90 ∨ 98 < m.temperature then time + 2 else time
  (time * 10).round / 10

theorem waste_setWaste_le (level : Count) (m : Machine) : (m.setWaste level).waste ≤ 100 := by
  simp only [setWaste]
  split
  · assumption
  · decide

end Machine

end Barista
