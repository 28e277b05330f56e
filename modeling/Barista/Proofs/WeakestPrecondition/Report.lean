/-
The list of conditions in the report, line by line.

A condition has one line, which ends in whether it is met, so the conditions
that fail can be read off the list again (`filter_conditionLines`). No line
has an end of its own, as no name has (`newline_notMem_conditionLines`).
-/
import Barista.Proofs.Requests.Conditions
import Barista.Proofs.Text.Lines
import Barista.WeakestPrecondition.Report

namespace Barista

namespace Order

theorem newline_notMem_name (policy : MilkPolicy) (o : Order) (m : Machine) :
    ∀ name ∈ (o.preconditions policy m).names, '\n' ∉ name.toList := by
  rw [names_preconditions]
  cases policy <;> decide

end Order

namespace WeakestPrecondition

/-- The line of a condition. -/
def conditionLine (entry : String × Bool) : String :=
  "  - " ++ entry.1 ++ ": " ++ if entry.2 then "MET" else "NOT MET"

def unmetLine (name : String) : String := "  - " ++ name ++ ": NOT MET"

theorem conditionLine_unmet (name : String) : conditionLine (name, false) = unmetLine name := by
  rw [conditionLine, unmetLine, String.append_assoc]
  rfl

theorem endsWith_conditionLine (entry : String × Bool) :
    Text.endsWith ": NOT MET" (conditionLine entry) = !entry.2 := by
  obtain ⟨name, met⟩ := entry
  cases met with
  | true =>
    have hline : conditionLine (name, true) = "  - " ++ name ++ ": MET" := by
      rw [conditionLine, String.append_assoc]
      rfl
    rw [hline, Text.endsWith_append_of_not _ (by decide) (by decide)]
    rfl
  | false =>
    rw [conditionLine_unmet, unmetLine, Text.endsWith_append]
    rfl

/-- **The conditions listed as not met are those that fail**, in their order. -/
theorem filter_conditionLines (c : Conditions) :
    (conditionLines "PRECONDITIONS" c).filter (Text.endsWith ": NOT MET") =
      c.failed.map unmetLine := by
  have hresult : ["", "RESULT: " ++ if c.allMet then "ALL CONDITIONS MET" else
      "SOME CONDITIONS NOT MET"].filter (Text.endsWith ": NOT MET") = [] := by
    cases c.allMet <;> decide
  rw [conditionLines, List.filter_append, List.filter_append, hresult, List.append_nil,
    show (heading "PRECONDITIONS").filter (Text.endsWith ": NOT MET") = [] by decide, List.nil_append]
  show (c.entries.map conditionLine).filter _ = _
  rw [List.filter_map, show Text.endsWith ": NOT MET" ∘ conditionLine = (fun entry => !entry.2) from
    funext endsWith_conditionLine, Conditions.failed, List.map_map]
  refine List.map_congr_left fun entry hentry => ?_
  obtain ⟨name, met⟩ := entry
  have hunmet : met = false := by simpa using (List.mem_filter.1 hentry).2
  rw [hunmet]
  exact conditionLine_unmet name

theorem newline_notMem_conditionLines {c : Conditions} (h : ∀ name ∈ c.names, '\n' ∉ name.toList) :
    ∀ line ∈ conditionLines "PRECONDITIONS" c, '\n' ∉ line.toList := by
  intro line hline
  rw [conditionLines, List.mem_append, List.mem_append] at hline
  rcases hline with (hheading | hentry) | hresult
  · have hplain : ∀ line ∈ heading "PRECONDITIONS", '\n' ∉ line.toList := by decide
    exact hplain line hheading
  · obtain ⟨entry, hmem, rfl⟩ := List.mem_map.1 hentry
    have hname := h entry.1 (List.mem_map_of_mem hmem)
    show '\n' ∉ (conditionLine entry).toList
    rw [conditionLine]
    cases entry.2 <;> simp [hname]
  · revert line
    cases c.allMet <;> decide

theorem exists_report {r : Request} {base : Binary64} (h : basePrice r.prices = .ok base) :
    ∃ text, r.report = .ok text := by
  simp only [Request.report, Request.verdict, Request.cost, totalCost, costTrace, costLines, h, bind,
    Except.bind]
  exact ⟨_, rfl⟩

end WeakestPrecondition

end Barista
