/-
Heating water to a target temperature, with a safety cutoff.
-/
import Barista.Cycle.Process
import Barista.Cycle.Rate

namespace Barista

/-- Heating from `current` towards `target` by `rate` degrees an iteration; a temperature above
`maxSafe` stops it. -/
structure WaterHeating where
  current : Binary64
  target : Binary64
  rate : Binary64
  maxSafe : Binary64
deriving DecidableEq

namespace WaterHeating

def processName : String := "water heating"

/-- All temperatures are finite, and the rate moves the hotter of start and target. -/
def checkParameters (h : WaterHeating) : Except Fault Unit := do
  Rate.checkFinite "current temperature" h.current
  Rate.checkFinite "target temperature" h.target
  Rate.checkFinite "max safe temperature" h.maxSafe
  Rate.checkPositive processName h.rate
  Rate.checkProgress processName h.rate (h.current.abs.greatest h.target.abs)

/-- One body: a warmer temperature, unless it is above the safe one. -/
def heat (h : WaterHeating) (temperature : Binary64) : Moved Unit Binary64 :=
  let next := temperature + h.rate
  if h.maxSafe < next then
    let cutoff := s!"SAFETY CUTOFF: temperature {next.plain}°C " ++
      s!"exceeded safe limit {h.maxSafe.plain}°C"
    ⟨(), .abort next, [cutoff]⟩
  else ⟨(), .proceed next, []⟩

def process (h : WaterHeating) : CyclicProcess Unit Binary64 where
  name := fun _ => processName
  checkParameters := h.checkParameters
  memory := ()
  initial := h.current
  iterationBound := Rate.bound (h.target - h.current) h.rate
  guard := fun _ t => t < h.target
  invariant := fun _ t => h.current ≤ t && t ≤ h.maxSafe
  variant := fun _ t => h.target - t
  step := fun _ t => h.heat t
  describe := fun _ t => s!"{t.plain}°C not in [{h.current.plain}, {h.maxSafe.plain}]"
  iterationLine := fun _ number before after variant =>
    s!"Iteration {number}: {before.plain}°C -> {after.plain}°C | variant: {variant.fixed 2}"
  preamble :=
    [ "WATER HEATING STARTED",
      s!"Initial temperature: {h.current.plain}°C",
      s!"Target temperature: {h.target.plain}°C",
      s!"Heating rate: {h.rate.plain}°C/iteration",
      s!"Max safe temperature: {h.maxSafe.plain}°C" ]
  summary := fun _ iterations last =>
    [s!"  - Iterations: {iterations}", s!"  - Final temperature: {last.plain}°C"]
  finalValue := fun _ t => t

def description (h : WaterHeating) : Description where
  name := "Water heating"
  code := "\n".intercalate
    [ s!"temp := {h.current.plain};",
      s!"while (temp < {h.target.plain}) \x7b",
      s!"    temp := temp + {h.rate.plain};",
      s!"    if (temp > {h.maxSafe.plain}) break;",
      "\x7d" ]
  invariant := s!"{h.current.plain} ≤ temp ≤ {h.maxSafe.plain}"
  variant := s!"{h.target.plain} - temp"
  purpose := "Heat water to the target temperature with a safety cutoff"

end WaterHeating

end Barista
