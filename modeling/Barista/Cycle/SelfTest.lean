/-
Testing every dispenser once, with any test: one that may remember, such as a
random one, or one that fails the dispensers of a list.
-/
import Barista.Cycle.Process
import Barista.Random.Tester

namespace Barista

/-- A test of a number of dispensers. The test is told the dispenser and may change its memory. -/
structure SelfTest (M : Type) where
  dispensers : Nat
  memory : M
  test : M → Nat → Bool × M

namespace SelfTest

/-- How many dispensers have passed, and how many have been tested. -/
structure Tally where
  passed : Nat
  tested : Nat
deriving DecidableEq, Inhabited

variable {M : Type}

/-- Tests with random outcomes. -/
def random (dispensers : Nat) (tester : Random.Tester) : SelfTest Random.Tester where
  dispensers := dispensers
  memory := tester
  test := fun tester _ => tester.test

/-- Every dispenser passes but those listed. -/
def failing (dispensers : Nat) (failures : List Nat) : SelfTest Unit where
  dispensers := dispensers
  memory := ()
  test := fun _ index => (!failures.contains index, ())

def testNext (t : SelfTest M) (m : M) (s : Tally) : Moved M Tally :=
  let (passed, m) := t.test m s.tested
  let outcome := if passed then "PASSED" else "FAILED"
  let next : Tally := ⟨if passed then s.passed + 1 else s.passed, s.tested + 1⟩
  ⟨m, .proceed next, [s!"Dispenser {s.tested + 1} test: {outcome}"]⟩

def process (t : SelfTest M) : CyclicProcess M Tally where
  name := fun _ => "dispenser testing"
  checkParameters := .ok ()
  memory := t.memory
  initial := ⟨0, 0⟩
  iterationBound := some t.dispensers
  guard := fun _ s => s.tested < t.dispensers
  invariant := fun _ s => s.passed ≤ s.tested && s.tested ≤ t.dispensers
  variant := fun _ s => Binary64.ofNat t.dispensers - Binary64.ofNat s.tested
  step := fun m s => t.testNext m s
  describe := fun _ s => s!"testsPassed={s.passed}, i={s.tested}"
  iterationLine := fun _ number _ after variant =>
    s!"Iteration {number}: testsPassed={after.passed} | variant: {variant.plain}"
  preamble := ["DISPENSER SELF-TEST STARTED", s!"Dispensers: {t.dispensers}"]
  summary := fun _ _ last =>
    [s!"  - Dispensers tested: {last.tested}", s!"  - Tests passed: {last.passed}/{t.dispensers}"]
  finalValue := fun _ s => Binary64.ofNat s.passed

def description (t : SelfTest M) : Description where
  name := "Dispenser testing"
  code := "\n".intercalate
    [ "testsPassed := 0;",
      "i := 0;",
      s!"while (i < {t.dispensers}) \x7b",
      "    if (testDispenser(i)) testsPassed := testsPassed + 1;",
      "    i := i + 1;",
      "\x7d" ]
  invariant := s!"0 ≤ testsPassed ≤ i ≤ {t.dispensers}"
  variant := s!"{t.dispensers} - i"
  purpose := "Automatic self-test of every dispenser"

end SelfTest

end Barista
