/-
Parameters of loops that count in doubles.

A rate must be positive and finite, and large enough that adding it moves even
the largest value of the loop; otherwise rounding would swallow every step.
-/
import Barista.Fault
import Barista.Binary64.Decimal

namespace Barista.Rate

/-- Refuses a parameter that is not a finite number. -/
def checkFinite (name : String) (value : Binary64) : Except Fault Unit :=
  if value.isFinite then .ok () else .error (.invalidParameter name value)

/-- Refuses a rate that is not positive and finite. -/
def checkPositive (process : String) (rate : Binary64) : Except Fault Unit :=
  if rate.isFinite && 0 < rate then .ok () else .error (.nonTerminatingRate process rate)

/-- Refuses a rate that a value of this magnitude swallows. -/
def checkProgress (process : String) (rate magnitude : Binary64) : Except Fault Unit :=
  if (magnitude + rate).sameNumber magnitude then .error (.nonTerminatingRate process rate)
  else .ok ()

/-- How many steps of a rate may be needed for a distance, if that fits sixty-four bits. Rounding
can shorten a step to two thirds of the rate, hence the doubling. -/
def bound (distance rate : Binary64) : Option Nat :=
  let steps := (distance / rate).ceil.greatest 0 * 2 + 1
  if steps.isFinite && steps < Binary64.ofNat UInt64.size then some steps.wholePart else none

end Barista.Rate
