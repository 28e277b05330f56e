/-
Emptying the waste tank, step by step, never below nothing.
-/
import Barista.Cycle.Process
import Barista.Cycle.Rate

namespace Barista

/-- Draining `waste` percent at `rate` percent an iteration. -/
structure TankCleaning where
  waste : Binary64
  rate : Binary64
deriving DecidableEq

namespace TankCleaning

def processName : String := "tank cleaning"

/-- The waste is finite, and the rate moves it. -/
def checkParameters (c : TankCleaning) : Except Fault Unit := do
  Rate.checkFinite "waste level" c.waste
  Rate.checkPositive processName c.rate
  Rate.checkProgress processName c.rate c.waste.abs

/-- One body: less waste, put right to zero if it would be negative. -/
def drain (c : TankCleaning) (waste : Binary64) : Moved Unit Binary64 :=
  let next := waste - c.rate
  if next < 0 then ⟨(), .proceed 0, ["CORRECTION: waste level clamped to 0%"]⟩
  else ⟨(), .proceed next, []⟩

def process (c : TankCleaning) : CyclicProcess Unit Binary64 where
  name := fun _ => processName
  checkParameters := c.checkParameters
  memory := ()
  initial := c.waste
  iterationBound := Rate.bound c.waste c.rate
  guard := fun _ w => 0 < w
  invariant := fun _ w => 0 ≤ w && w ≤ c.waste
  variant := fun _ w => w
  step := fun _ w => c.drain w
  describe := fun _ w => s!"{w.plain}% not in [0, {c.waste.plain}]"
  iterationLine := fun _ number before after variant =>
    s!"Iteration {number}: {before.plain}% -> {after.plain}% | variant: {variant.fixed 2}"
  preamble :=
    [ "TANK CLEANING STARTED",
      s!"Initial waste level: {c.waste.plain}%",
      s!"Cleaning rate: {c.rate.plain}%/iteration" ]
  summary := fun _ iterations last =>
    [s!"  - Iterations: {iterations}", s!"  - Final waste level: {last.plain}%"]
  finalValue := fun _ w => w

def description (c : TankCleaning) : Description where
  name := "Tank cleaning"
  code := "\n".intercalate
    [ s!"wasteLevel := {c.waste.plain};",
      "while (wasteLevel > 0) \x7b",
      s!"    wasteLevel := wasteLevel - {c.rate.plain};",
      "    if (wasteLevel < 0) wasteLevel := 0;",
      "\x7d" ]
  invariant := s!"0 ≤ wasteLevel ≤ {c.waste.plain}"
  variant := "wasteLevel"
  purpose := "Empty the waste tanks"

end TankCleaning

end Barista
