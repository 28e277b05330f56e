/-
Cyclic processes: loops with a guard, an invariant and a variant, which the
analyzer can run.

A process has a state, which the loop is about, and a memory, which its body
may change as well and which everything it says may depend on. `Step` is how a
body ends: it goes on to a next state, or a safety condition stops the loop.

A body adds lines to the trace and has no other part in it: it does not see the
lines that are there, and cannot take any back. What it is to go by must be in
the memory.
-/
import Barista.Fault

namespace Barista

/-- How the body of a loop ended. -/
inductive Step (S : Type) where
  | proceed (next : S)
  | abort (next : S)

/-- What a body leaves: the memory, how it ended, and the lines that go to the end of the trace. -/
structure Moved (M S : Type) where
  memory : M
  step : Step S
  lines : List String

/-- A loop that the analyzer can run. -/
structure CyclicProcess (M S : Type) where
  name : M → String
  /-- Refuses parameters with which the loop would mean nothing or not end. -/
  checkParameters : Except Fault Unit
  memory : M
  initial : S
  /-- How many iterations there can be, if that is known beforehand. -/
  iterationBound : Option Nat
  guard : M → S → Bool
  invariant : M → S → Bool
  variant : M → S → Binary64
  /-- Runs one body. The trace is not handed to it: the contract is that its corrections, cutoffs and
  outcomes of tests are extra lines, which it gives back in `Moved.lines`. -/
  step : M → S → Moved M S
  /-- A state in the words of a violation. -/
  describe : M → S → String
  /-- The line of an iteration, from its number, the states before and after, and the variant. -/
  iterationLine : M → Nat → S → S → Binary64 → String
  preamble : List String
  /-- What to say at the end, from the number of iterations and the last state. -/
  summary : M → Nat → S → List String
  /-- The loop's main variable. -/
  finalValue : M → S → Binary64

structure Description where
  name : String
  code : String
  invariant : String
  variant : String
  purpose : String
deriving DecidableEq, Inhabited

end Barista
