/-
Why something was refused.

A fault is its cause with what is needed to say it; the wording is in
`Fault.message` alone. The two last ones are no refusals but accidents:
a count outside thirty-two bits, which only an exhausted counter reaches.
-/
import Barista.Binary64.Text

namespace Barista

/-- What can be asked of a machine. -/
inductive Operation where
  | brew
  | refill
  | maintenance
deriving DecidableEq, Inhabited

def Operation.name : Operation → String
  | .brew => "brew"
  | .refill => "refill"
  | .maintenance => "maintenance"

inductive Fault where
  | unknownDrink (text : String)
  | unknownIngredient (text : String)
  | unknownService (text : String)
  /-- With this rate the process would never end. -/
  | nonTerminatingRate (process : String) (rate : Binary64)
  | invalidParameter (name : String) (value : Binary64)
  | iterationLimit (process : String) (limit : Nat)
  | missingPrice (key : String)
  /-- The conditions named did not hold, and nothing was done. -/
  | preconditionsFailed (operation : Operation) (failed : List String)
  | additionOverflow
  | subtractionOverflow
deriving DecidableEq

/-- The wording of a fault. -/
def Fault.message : Fault → String
  | .unknownDrink text =>
    s!"unknown drink '{text}' (expected espresso, americano, cappuccino or latte)"
  | .unknownIngredient text =>
    s!"unknown ingredient '{text}' (expected water, coffee, milk, cups or sugar)"
  | .unknownService text =>
    s!"unknown maintenance type '{text}' " ++
      "(expected cleaning, deep-cleaning, calibration or diagnostic)"
  | .nonTerminatingRate process rate =>
    s!"{process}: rate must be a positive finite number, got {rate.plain}"
  | .invalidParameter name value => s!"invalid value for {name}: {value.plain}"
  | .iterationLimit process limit => s!"{process}: gave up after {limit} iterations"
  | .missingPrice key => s!"price table has no '{key}' entry"
  | .preconditionsFailed operation failed =>
    s!"{operation.name} rejected, unmet preconditions: " ++ ", ".intercalate failed
  | .additionOverflow => "attempt to add with overflow"
  | .subtractionOverflow => "attempt to subtract with overflow"

end Barista
