/-
Servicing the machine: waste out, wear down, water cold.
-/
import Barista.Attempt
import Barista.Maintenance.Service
import Barista.Order

namespace Barista

structure Maintenance where
  service : Service
  /-- Empties the water tank; deep cleaning alone does it. -/
  drainWater : Bool
  resetStatistics : Bool
deriving DecidableEq

structure MaintenanceReport where
  request : Maintenance
  wearBefore : Binary64
  wearAfter : Binary64
  postconditions : Conditions
deriving DecidableEq

namespace Maintenance

/-- The water's temperature after a service, in degrees. -/
def serviceTemperature : Binary64 := 25

/-- A serviced machine is no warmer than this. -/
def coolTemperature : Binary64 := 30

/-- The water tank is emptied. -/
def drains (r : Maintenance) : Bool := r.drainWater && r.service = .deepCleaning

def preconditions (m : Machine) : Conditions :=
  Conditions.ofList [("machine not brewing", !m.isBrewing), ("waste present", 0 < m.waste)]

/-- The machine after the service. -/
def serviced (r : Maintenance) (m : Machine) : Except Fault Machine := do
  let maintenanceCount ← m.maintenanceCount.plus 1
  let m := { m.setWaste 0 with temperature := serviceTemperature, maintenanceCount }
  let m := m.reduceWear r.service.wearReduction
  let m := if r.drains then { m with stock := m.stock.setLevel .water 0 } else m
  return if r.resetStatistics then { m with drinksMade := 0 } else m

/-- What held after the service, seen from the machine before and after. -/
def postconditions (r : Maintenance) (before after : Machine) : Except Fault Conditions := do
  let counted ← before.maintenanceCount.plus 1
  return Conditions.ofList
    [ ("waste cleaned", after.waste = 0),
      ("temperature reset", after.temperature ≤ coolTemperature),
      ("maintenance count increased", after.maintenanceCount = counted),
      ("water drained", !r.drains || after.stock.water = 0),
      ("wear reduced", after.wear ≤ before.wear),
      ("health maintained", before.health ≤ after.health),
      ("machine not broken", !after.isBroken) ]

/-- The report on the service, and the machine afterwards. -/
def carryOut (r : Maintenance) (m : Machine) : Except Fault (MaintenanceReport × Machine) := do
  let after ← r.serviced m
  let postconditions ← r.postconditions m after
  return (⟨r, m.wear, after.wear, postconditions⟩, after)

def perform (r : Maintenance) (m : Machine) : Attempt MaintenanceReport :=
  .guarded .maintenance (preconditions m) m (r.carryOut m)

end Maintenance

end Barista
