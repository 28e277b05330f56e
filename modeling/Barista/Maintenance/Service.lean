/-
The kinds of service and the wear that each removes.
-/
import Barista.Binary64.Decimal
import Barista.Fault
import Barista.Text.Blank

namespace Barista

inductive Service where
  | cleaning
  | deepCleaning
  | calibration
  | diagnostic
deriving DecidableEq, Inhabited

namespace Service

def name : Service → String
  | .cleaning => "cleaning"
  | .deepCleaning => "deep cleaning"
  | .calibration => "calibration"
  | .diagnostic => "diagnostic"

def wearReduction : Service → Binary64
  | .cleaning => 15
  | .deepCleaning => 30
  | .calibration => 20
  | .diagnostic => 10

/-- An underscore may stand for a hyphen. -/
def hyphenated (text : String) : String :=
  String.ofList (text.toList.map fun c => if c = '_' then '-' else c)

/-- The service that a text names, whatever its letter case and the white space at its ends. -/
def ofText (text : String) : Except Fault Service :=
  match hyphenated (Text.normalize text) with
  | "cleaning" => .ok .cleaning
  | "deep-cleaning" | "deep" => .ok .deepCleaning
  | "calibration" => .ok .calibration
  | "diagnostic" => .ok .diagnostic
  | _ => .error (.unknownService text)

end Service

end Barista
