/-
The report on a weakest precondition does not contradict itself.

Each part of the conjunction is told three times: in its section, in its step
at the end, and in the verdict. A name can have ends of lines in it, but the
steps are the last lines of a report (`Summary`) and have no names in them, so
they can be read again behind any sections (`Text.suffix_lines_unlines`), as
can the last lines of each section. What they say is worked out from the same
parts (`Request.agrees_summary`), and the postconditions are looked at in
their own section alone.
-/
import Barista.Proofs.WeakestPrecondition.Report
import Barista.Proofs.WeakestPrecondition.Verdict

namespace Barista.WeakestPrecondition

/-! ## What a line says -/

/-- A line says that something holds. -/
def saysHolds (line : String) : Bool := Text.endsWith "HOLDS" line

theorem saysHolds_append_holds (text : String) (ok : Bool) : saysHolds (text ++ holds ok) = ok := by
  have hlen : "HOLDS".length ≤ (holds ok).length := by cases ok <;> decide
  rw [saysHolds, Text.endsWith_append_of_le text hlen]
  cases ok <;> decide

theorem holds_decide {ok : Bool} {p : Prop} [Decidable p] (h : ok = true ↔ p) :
    holds (decide p) = holds ok := by
  rw [show decide p = ok from Bool.eq_iff_iff.2 (decide_eq_true_iff.trans h.symm)]

@[simp] theorem newline_notMem_holds (ok : Bool) : '\n' ∉ (holds ok).toList := by
  cases ok <;> decide

/-! ## The last lines of a report -/

/-- The last lines of a report: the verdict, and the six steps that lead to it. -/
structure Summary where
  overall : String
  preconditions : String
  resources : String
  time : String
  cost : String
  formula : String
  verdict : String

def Summary.lines (s : Summary) : List String :=
  [ s.overall, "", "STEP-BY-STEP:", s.preconditions, s.resources, s.time, s.cost, s.formula,
    s.verdict ]

/-- The last lines of a report say the same as a verdict and as the sections on a request, of which
the one on the cost is given. -/
structure Summary.Agrees (s : Summary) (r : Request) (costs : String) (verdict : Bool) : Prop where
  overall : saysHolds s.overall = verdict
  last : saysHolds s.verdict = verdict
  steps : verdict = true ↔ saysHolds s.preconditions = true ∧ saysHolds s.resources = true ∧
    saysHolds s.time = true ∧ saysHolds s.cost = true
  preconditions_line : s.preconditions =
    s!"1. Preconditions: {r.preconditions.metCount}/{r.preconditions.size} met -> " ++
      holds (r.preconditions.metCount = r.preconditions.size)
  preconditions_counts : saysHolds s.preconditions = true ↔
    r.preconditions.metCount = r.preconditions.size
  preconditions_section : saysHolds s.preconditions = true ↔
    ["RESULT: ALL CONDITIONS MET"] <:+ Text.lines (preconditionSection r.preconditions)
  resources_line : s.resources =
    s!"2. Resources: {r.resources.countP (·.satisfied)}/{r.resources.length} sufficient -> " ++
      holds (r.resources.countP (·.satisfied) = r.resources.length)
  resources_counts : saysHolds s.resources = true ↔
    r.resources.countP (·.satisfied) = r.resources.length
  resources_section : saysHolds s.resources = true ↔
    ∃ ok, ["RESULT: ORDER POSSIBLE", "", "INVARIANT: all resources >= 0", "   " ++ holds ok] <:+
      Text.lines (resourceSection r.resources)
  time_section : saysHolds s.time = true ↔
    ["   HOLDS"] <:+ Text.lines (timeTrace r.drink r.sugar Machine.baseBrewTime)
  cost_section : saysHolds s.cost = true ↔ ["   HOLDS"] <:+ Text.lines costs

namespace Request

variable {r : Request} {cost : Binary64} {verdict : Bool}

/-- The last lines of the report on a request. -/
def summary (r : Request) (cost : Binary64) (verdict : Bool) : Summary :=
  let step (n : Nat) := (r.stepLines cost verdict).getD n ""
  ⟨"OVERALL WP VERDICT: " ++ holds verdict, step 0, step 1, step 2, step 3, step 4, step 5⟩

theorem lines_summary (r : Request) (cost : Binary64) (verdict : Bool) :
    (r.summary cost verdict).lines =
      ("OVERALL WP VERDICT: " ++ holds verdict) :: "" :: "STEP-BY-STEP:" ::
        r.stepLines cost verdict := rfl

theorem saysHolds_summary (r : Request) (cost : Binary64) (verdict : Bool) :
    saysHolds (r.summary cost verdict).preconditions = r.preconditions.allMet ∧
      saysHolds (r.summary cost verdict).resources = sufficient r.resources ∧
      saysHolds (r.summary cost verdict).time = within r.time maxTime ∧
      saysHolds (r.summary cost verdict).cost = within cost maxCost :=
  ⟨saysHolds_append_holds _ _, saysHolds_append_holds _ _, saysHolds_append_holds _ _,
    saysHolds_append_holds _ _⟩

theorem newline_notMem_summary (r : Request) (cost : Binary64) (verdict : Bool) :
    ∀ line ∈ (r.summary cost verdict).lines, '\n' ∉ line.toList := by
  simp [lines_summary, stepLines]

end Request

/-! ## What the sections say -/

theorem all_conditions_met_iff (c : Conditions) :
    ["RESULT: ALL CONDITIONS MET"] <:+ Text.lines (preconditionSection c) ↔ c.allMet = true := by
  have hlast : [ "RESULT: " ++ if c.allMet then "ALL CONDITIONS MET" else
      "SOME CONDITIONS NOT MET" ] <:+ conditionLines "PRECONDITIONS" c :=
    List.suffix_append_of_suffix ⟨[""], rfl⟩
  refine Iff.trans (Text.suffix_lines_unlines_iff hlast ?_ rfl) ?_
  · cases c.allMet <;> decide
  · cases c.allMet <;> decide

theorem order_possible_iff (resources : List StockCheck) :
    (∃ ok, ["RESULT: ORDER POSSIBLE", "", "INVARIANT: all resources >= 0", "   " ++ holds ok] <:+
      Text.lines (resourceSection resources)) ↔ sufficient resources = true := by
  generalize hok : (resources.all fun check => decide (0 ≤ check.current)) = ok
  have hlast : [ "RESULT: " ++ if sufficient resources then "ORDER POSSIBLE" else
      "ORDER IMPOSSIBLE - insufficient resources", "", "INVARIANT: all resources >= 0",
      "   " ++ holds ok ] <:+ resourceLines resources := by
    rw [← hok]
    exact List.suffix_append_of_suffix ⟨[""], rfl⟩
  refine Iff.trans (exists_congr fun said => Text.suffix_lines_unlines_iff hlast ?_ rfl) ?_
  · cases sufficient resources <;> cases ok <;> decide
  · cases sufficient resources <;> cases ok <;> decide

theorem invariant_iff {all : List String} {ok : Bool} (hlast : ["   " ++ holds ok] <:+ all) :
    ["   HOLDS"] <:+ Text.lines (Text.unlines all) ↔ ok = true := by
  refine Iff.trans (Text.suffix_lines_unlines_iff hlast ?_ rfl) ?_
  · cases ok <;> decide
  · cases ok <;> decide

theorem time_holds_iff (drink : Drink) (sugar : Count) (base : Binary64) :
    ["   HOLDS"] <:+ Text.lines (timeTrace drink sugar base) ↔
      within (totalTime drink sugar base) maxTime = true :=
  invariant_iff (List.suffix_append_of_suffix ⟨["", _, "", _], rfl⟩)

theorem exists_costTrace {r : Request} {base : Binary64} (h : basePrice r.prices = .ok base) :
    ∃ cost costs, r.cost = .ok cost ∧ costTrace r.drink r.sugar r.prices = .ok costs ∧
      (["   HOLDS"] <:+ Text.lines costs ↔ within cost maxCost = true) := by
  simp only [Request.cost, totalCost, costTrace, costLines, h, bind, Except.bind]
  exact ⟨_, _, rfl, rfl, invariant_iff (List.suffix_append_of_suffix ⟨["", _, "", _], rfl⟩)⟩

/-! ## The report -/

theorem sufficient_iff_countP (resources : List StockCheck) : sufficient resources = true ↔
    resources.countP (·.satisfied) = resources.length := by
  rw [sufficient, List.all_eq_true, List.countP_eq_length]

namespace Request

variable {r : Request} {cost : Binary64} {costs : String} {verdict : Bool}

/-- **The last lines of a report agree with its sections.** -/
theorem agrees_summary (hverdict : r.verdict = .ok verdict) (hcost : r.cost = .ok cost)
    (hcosts : ["   HOLDS"] <:+ Text.lines costs ↔ within cost maxCost = true) :
    (r.summary cost verdict).Agrees r costs verdict := by
  have hmet := r.preconditions.allMet_iff_metCount
  have henough := sufficient_iff_countP r.resources
  obtain ⟨hpreconditions, hresources, htime, hprice⟩ := r.saysHolds_summary cost verdict
  have hparts := verdict_eq hcost
  rw [hverdict, Except.ok.injEq] at hparts
  exact {
    overall := saysHolds_append_holds _ _
    last := saysHolds_append_holds _ _
    steps := by
      rw [hpreconditions, hresources, htime, hprice, hparts]
      simp only [Bool.and_eq_true, and_assoc]
    preconditions_line := by
      rw [holds_decide hmet]
      rfl
    preconditions_counts := by rw [hpreconditions, hmet]
    preconditions_section := by rw [hpreconditions, all_conditions_met_iff]
    resources_line := by
      rw [holds_decide henough]
      rfl
    resources_counts := by rw [hresources, henough]
    resources_section := by rw [hresources, order_possible_iff]
    time_section := by
      rw [htime, time_holds_iff]
      rfl
    cost_section := by rw [hprice, hcosts] }

/-- The report on a request with these postconditions in place of its own: section by section, then
the formula and the last lines. -/
def reportWith (r : Request) (costs : String) (s : Summary) (postconditions : Conditions) :
    String :=
  Text.unlines ["FULL WP ANALYSIS OF THE BREWING ALGORITHM", Text.repeated '=' 41, ""] ++
    preconditionSection r.preconditions ++ "\n" ++ resourceSection r.resources ++ "\n" ++
    timeTrace r.drink r.sugar Machine.baseBrewTime ++ "\n" ++ costs ++ "\n" ++
    postconditionSection postconditions ++
    Text.unlines ("" :: ("WP FORMULA: " ++ r.formula) :: "" :: s.lines)

theorem report_eq (hverdict : r.verdict = .ok verdict) (hcost : r.cost = .ok cost)
    (hcosts : costTrace r.drink r.sugar r.prices = .ok costs) :
    r.report = .ok (r.reportWith costs (r.summary cost verdict) r.postconditions) := by
  simp only [report, hcost, hverdict, hcosts, bind, Except.bind]
  refine congrArg Except.ok ?_
  simp [reportWith, lines_summary, Text.unlines_cons, Text.unlines_nil, String.append_assoc]

end Request

/-- **A report does not contradict itself.** Without a base price there is no report, no verdict and
no section on the cost, for that reason; with one there are all three. The report has its sections
in order and then the formula, the verdict and the six steps, which agree with one another and with
the sections, even where a price is no number. The postconditions are seen in their own section
alone. -/
theorem report_consistent (r : Request) :
    (r.prices.lookup "base" = none →
      r.report = .error (.missingPrice "base") ∧ r.verdict = .error (.missingPrice "base") ∧
        costTrace r.drink r.sugar r.prices = .error (.missingPrice "base")) ∧
    ∀ base, r.prices.lookup "base" = some base → ∃ cost verdict costs,
      r.cost = .ok cost ∧ r.verdict = .ok verdict ∧
      costTrace r.drink r.sugar r.prices = .ok costs ∧
      let s := r.summary cost verdict
      s.Agrees r costs verdict ∧ ∀ postconditions,
        ({ r with postconditions } : Request).report =
          .ok (r.reportWith costs s postconditions) ∧
        ({ r with postconditions } : Request).verdict = .ok verdict ∧
        s.lines <:+ Text.lines (r.reportWith costs s postconditions) := by
  constructor
  · intro hnone
    have hprice : basePrice r.prices = .error (.missingPrice "base") := by
      rw [basePrice, show r.prices.lookup baseKey = none from hnone]
      rfl
    have hcost : r.cost = .error (.missingPrice "base") := by
      rw [Request.cost, totalCost, hprice]
      rfl
    refine ⟨?_, ?_, ?_⟩
    · rw [Request.report, hcost]
      rfl
    · rw [Request.verdict, hcost]
      rfl
    · rw [costTrace, costLines, hprice]
      rfl
  · intro base hsome
    have hprice : basePrice r.prices = .ok base := by
      rw [basePrice, show r.prices.lookup baseKey = some base from hsome]
    obtain ⟨cost, costs, hcost, hcosts, hholds⟩ := exists_costTrace hprice
    have hverdict := verdict_eq hcost
    refine ⟨cost, _, costs, hcost, hverdict, hcosts,
      Request.agrees_summary hverdict hcost hholds, fun postconditions => ⟨?_, hverdict, ?_⟩⟩
    · exact Request.report_eq (r := { r with postconditions }) hverdict hcost hcosts
    · exact Text.suffix_lines_append _ ⟨["WP FORMULA: " ++ r.formula, ""], rfl⟩
        (r.newline_notMem_summary cost _)

/-- A price that is no number, and a name that looks like the result of a section: the report is
still read as it is meant. -/
theorem report_consistent_misleading :
    let r : Request := ⟨⟨[("water\nRESULT: ALL CONDITIONS MET", false)]⟩, .empty, .latte, 3,
      [⟨"cups", -1, 1, true⟩], pricesWithBase .nan⟩
    ({ r with prices := [] } : Request).report = .error (.missingPrice "base") ∧
      r.verdict = .ok false ∧ ∃ text s, r.report = .ok text ∧ Summary.lines s <:+ Text.lines text ∧
        saysHolds s.overall = false ∧ saysHolds s.resources = true ∧
        saysHolds s.cost = false ∧
        ¬ ["RESULT: ALL CONDITIONS MET"] <:+ Text.lines (preconditionSection r.preconditions) := by
  intro r
  obtain ⟨hmissing, -⟩ := report_consistent { r with prices := [] }
  obtain ⟨-, hfound⟩ := report_consistent r
  obtain ⟨cost, verdict, costs, hcost, hverdict, -, hagrees, hreport⟩ := hfound .nan rfl
  obtain ⟨hpreconditions, hresources, -, hprice⟩ := r.saysHolds_summary cost verdict
  have hunmet : saysHolds (r.summary cost verdict).preconditions ≠ true := by
    rw [hpreconditions]
    decide
  have hfalse : verdict = false := by
    rw [← Bool.not_eq_true, hagrees.steps]
    exact fun h => hunmet h.1
  obtain rfl := hfalse
  have hexpensive : r.cost = .ok .nan := by decide +kernel
  rw [hcost, Except.ok.injEq] at hexpensive
  obtain ⟨htext, -, hread⟩ := hreport .empty
  refine ⟨(hmissing rfl).1, hverdict, _, _, htext, hread, hagrees.overall, hresources, ?_, ?_⟩
  · rw [hprice, hexpensive]
    decide +kernel
  · rwa [← hagrees.preconditions_section]

end Barista.WeakestPrecondition
