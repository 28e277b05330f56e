/-
A dispenser test that passes with a given probability.

A tester draws from a stream of numbers in order, and a draw passes if it is
below the pass rate's share of all draws. The rate one needs no draw.
`Tester.create` draws from the stream of a key.
-/
import Barista.Binary64.Decimal
import Barista.Fault
import Barista.Random.Keystream

namespace Barista.Random

/-- The chance that a healthy dispenser passes its test. -/
def defaultPassRate : Binary64 := 0.8

structure Tester where
  /-- The draws by their numbers. -/
  draws : Nat → UInt64
  passRate : Binary64
  /-- How many draws there were. -/
  drawn : Nat

/-- How many of the `2^64` draws pass at a rate from zero up to one. -/
def passing : Binary64 → Nat
  | .finite _ units _ => units * UInt64.size / Binary64.one
  | _ => 0

/-- A draw passes at a rate. -/
def passes (rate : Binary64) (drawn : UInt64) : Bool := drawn.toNat < passing rate

namespace Tester

/-- A tester before its first test; the rate must be a probability. -/
def ofDraws (draws : Nat → UInt64) (passRate : Binary64) : Except Fault Tester :=
  if 0 ≤ passRate ∧ passRate ≤ 1 then .ok ⟨draws, passRate, 0⟩
  else .error (.invalidParameter "pass rate" passRate)

def create (key : Key) (passRate : Binary64) : Except Fault Tester := ofDraws (draw key) passRate

def test (t : Tester) : Bool × Tester :=
  if t.passRate = 1 then (true, t)
  else (passes t.passRate (t.draws t.drawn), { t with drawn := t.drawn + 1 })

/-- The outcomes of a number of tests in a row. -/
def outcomes : Nat → Tester → List Bool
  | 0, _ => []
  | count + 1, t => let (passed, t) := t.test; passed :: outcomes count t

end Tester

end Barista.Random
