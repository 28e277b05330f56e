/-
Running a cyclic process and judging it.

The analyzer runs the loop to its end. It looks at the invariant on both sides
of every iteration and at the variant, which has to become smaller, and notes
what it sees in a trace. A violation is a finding and stops nothing; only a loop
that is still going at its bound is given up.
-/
import Barista.Cycle.Process

namespace Barista

/-- How a loop ended. -/
inductive Outcome where
  | completed
  | safetyAborted
deriving DecidableEq, Inhabited

def Outcome.name : Outcome → String
  | .completed => "completed"
  | .safetyAborted => "safety_aborted"

/-- What came of running a process. -/
structure Analysis where
  invariantMaintained : Bool
  variantValid : Bool
  iterations : Nat
  outcome : Outcome
  /-- The loop's main variable when it stopped. -/
  finalValue : Binary64
  trace : List String
deriving DecidableEq

namespace Analysis

/-- Neither the invariant nor the variant was violated. -/
def isCorrect (a : Analysis) : Bool := a.invariantMaintained && a.variantValid

def conclusion (a : Analysis) : String :=
  if a.isCorrect then "Loop is correct: invariant maintained, variant decreases"
  else "Loop contains errors"

end Analysis

/-- One iteration: what it leaves, whether all held in it, and its part of the trace. -/
structure Iteration (M S : Type) where
  memory : M
  state : S
  outcome : Outcome
  invariantHeld : Bool
  variantHeld : Bool
  lines : List String

/-- A run so far. -/
structure Progress (M S : Type) where
  memory : M
  state : S
  iterations : Nat
  outcome : Outcome
  invariantMaintained : Bool
  variantValid : Bool
  trace : Array String

/-- The run with one more iteration. -/
def Progress.extend {M S : Type} (r : Progress M S) (i : Iteration M S) : Progress M S where
  memory := i.memory
  state := i.state
  iterations := r.iterations + 1
  outcome := i.outcome
  invariantMaintained := r.invariantMaintained && i.invariantHeld
  variantValid := r.variantValid && i.variantHeld
  trace := r.trace ++ i.lines

namespace CyclicProcess

variable {M S : Type}

/-- How many iterations a process gets that knows no bound. -/
def maxIterations : Nat := 100000

/-- The line for a state that violates the invariant, and none for one that does not. -/
def invariantLines (p : CyclicProcess M S) (place : String) (number : Nat) (m : M) (s : S) :
    List String :=
  if p.invariant m s then []
  else [s!"INVARIANT VIOLATED {place} iteration {number}: {p.describe m s}"]

/-- The line for a variant that did not become smaller, and none for one that did. -/
def variantLines (earlier later : Binary64) : List String :=
  if later < earlier then []
  else [s!"VARIANT VIOLATED: {later.plain} did not decrease from {earlier.plain}"]

/-- Runs the body once. After an abort nothing more is looked at. -/
def iterate (p : CyclicProcess M S) (number : Nat) (m : M) (s : S) : Iteration M S :=
  let earlier := p.variant m s
  let moved := p.step m s
  let before := p.invariantLines "before" number m s ++ moved.lines
  match moved.step with
  | .abort next =>
    { memory := moved.memory, state := next, outcome := .safetyAborted
      invariantHeld := p.invariant m s, variantHeld := true, lines := before }
  | .proceed next =>
    let later := p.variant moved.memory next
    { memory := moved.memory, state := next, outcome := .completed
      invariantHeld := p.invariant m s && p.invariant moved.memory next
      variantHeld := later < earlier
      lines := before ++ p.invariantLines "after" number moved.memory next ++
        variantLines earlier later ++ [p.iterationLine moved.memory number s next later] }

/-- Runs the loop for `left` more iterations at most, out of `limit` in all. -/
def runFor (p : CyclicProcess M S) (limit : Nat) :
    (left : Nat) → Progress M S → Except Fault (Progress M S)
  | 0, r => if p.guard r.memory r.state then .error (.iterationLimit (p.name r.memory) limit) else .ok r
  | left + 1, r =>
    if p.guard r.memory r.state then
      let r := r.extend (p.iterate (r.iterations + 1) r.memory r.state)
      match r.outcome with
      | .safetyAborted => .ok r
      | .completed => p.runFor limit left r
    else .ok r

/-- How many iterations the loop gets. -/
def limit (p : CyclicProcess M S) : Nat := p.iterationBound.getD maxIterations

def start (p : CyclicProcess M S) : Progress M S where
  memory := p.memory
  state := p.initial
  iterations := 0
  outcome := .completed
  invariantMaintained := true
  variantValid := true
  trace := (p.preamble ++ [""]).toArray

def yesNo (flag : Bool) : String := if flag then "YES" else "NO"

/-- The lines at the end of the trace. -/
def closing (p : CyclicProcess M S) (r : Progress M S) : List String :=
  ["", "ANALYSIS RESULT:"] ++ p.summary r.memory r.iterations r.state ++
    [ "  - Invariant maintained: " ++ yesNo r.invariantMaintained,
      "  - Variant valid: " ++ yesNo r.variantValid ]

/-- The judgement on a run that has ended. -/
def judge (p : CyclicProcess M S) (r : Progress M S) : Analysis where
  invariantMaintained := r.invariantMaintained
  variantValid := r.variantValid
  iterations := r.iterations
  outcome := r.outcome
  finalValue := p.finalValue r.memory r.state
  trace := r.trace.toList ++ p.closing r

/-- Runs the process and judges it. -/
def analyze (p : CyclicProcess M S) : Except Fault Analysis := do
  p.checkParameters
  let r ← p.runFor p.limit p.limit p.start
  return p.judge r

end CyclicProcess

end Barista
