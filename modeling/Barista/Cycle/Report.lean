/-
An analysis as a report, or as a JSON document.
-/
import Barista.Cycle.Analysis
import Barista.Text.Json
import Barista.Text.Lines

namespace Barista.Analysis

/-- A process in words, the trace of its run, and the conclusion. -/
def report (d : Description) (a : Analysis) : String :=
  Text.unlines
    ([ "CYCLIC PROCESS ANALYSIS",
       "=======================",
       "Process: " ++ d.name,
       "Description: " ++ d.purpose,
       "",
       "PROCESS CODE:",
       d.code,
       "",
       "ANALYSIS PARAMETERS:",
       "  - Invariant: " ++ d.invariant,
       "  - Variant: " ++ d.variant,
       "",
       "EXECUTION TRACE:" ] ++ a.trace ++
     [ "",
       "FINAL VERDICT:",
       a.conclusion ])

/-- The analysis as a JSON document; a number that is not finite is null. -/
def json (a : Analysis) : Text.Json :=
  .object
    [ ("invariant_maintained", .bool a.invariantMaintained),
      ("variant_valid", .bool a.variantValid),
      ("iterations", .number (toString a.iterations)),
      ("outcome", .string a.outcome.name),
      ("final_value", (a.finalValue.json?.map Text.Json.number).getD .null),
      ("steps", .array (a.trace.map Text.Json.string)),
      ("conclusion", .string a.conclusion) ]

end Barista.Analysis
