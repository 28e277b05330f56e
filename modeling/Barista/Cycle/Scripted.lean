/-
A process whose values are written down beforehand, to try the analyzer out:
it can be made to violate its invariant or its variant, to stop, or to go on
without end.
-/
import Barista.Cycle.Process
import Barista.Binary64.Decimal

namespace Barista

/-- The values of the loop in order; the last one is repeated. The loop goes on while its value
is positive, and stops for safety at one place if that is given. -/
structure Scripted where
  script : Array Binary64
  low : Binary64
  high : Binary64
  abortAt : Option Nat
  bound : Option Nat

namespace Scripted

/-- A place in the script and the value there. -/
structure Position where
  index : Nat
  value : Binary64

def position (s : Scripted) (index : Nat) : Position := ⟨index, s.script.getD index 0⟩

/-- One body: on to the next place of the script, or once more to its last. -/
def advance (s : Scripted) (p : Position) : Moved Unit Position :=
  let index := min (p.index + 1) (s.script.size - 1)
  let next := s.position index
  if s.abortAt = some index then ⟨(), .abort next, [s!"abort at {index}"]⟩
  else ⟨(), .proceed next, []⟩

def Position.text (p : Position) : String := s!"x[{p.index}]={p.value.plain}"

def process (s : Scripted) : CyclicProcess Unit Position where
  name := fun _ => "scripted"
  checkParameters := .ok ()
  memory := ()
  initial := s.position 0
  iterationBound := s.bound
  guard := fun _ p => 0 < p.value
  invariant := fun _ p => s.low ≤ p.value && p.value ≤ s.high
  variant := fun _ p => p.value
  step := fun _ p => s.advance p
  describe := fun _ p => p.text
  iterationLine := fun _ number before after variant =>
    s!"Iteration {number}: {before.value.plain} -> {after.value.plain} | variant: {variant.fixed 2}"
  preamble := []
  summary := fun _ iterations last => [s!"  - {iterations} iterations, {last.text}"]
  finalValue := fun _ p => p.value

def description (s : Scripted) : Description where
  name := "Scripted"
  code := "x := script"
  invariant := s!"{s.low.plain} <= x <= {s.high.plain}"
  variant := "x"
  purpose := ""

end Scripted

end Barista
