/-
The trace tells the whole run.

Between its opening and its closing lines the trace is one block for each
turn of the run, in order. `CyclicProcess.block` says what a turn is due,
without the analyzer: the analyzer's own lines are kept apart from those
that the body wrote, which may look like them. The loop's trace is the
blocks one after another (`trace_replay`), and a flag is down exactly if a
block has the line for it (`violatesInvariant_block`,
`violatesVariant_block`).
-/
import Barista.Cycle.Scripted
import Barista.Proofs.Cycle.Verdict
import Barista.Proofs.Text.Lines

namespace Barista

/-- What the trace shows of one turn: the analyzer's lines around those of the body. -/
structure Block where
  invariantBefore : Option String
  body : List String
  invariantAfter : Option String
  variant : Option String
  iteration : Option String

namespace Block

def lines (b : Block) : List String :=
  b.invariantBefore.toList ++ b.body ++ b.invariantAfter.toList ++ b.variant.toList ++
    b.iteration.toList

/-- The analyzer has noted that the invariant did not hold. -/
def violatesInvariant (b : Block) : Bool := b.invariantBefore.isSome || b.invariantAfter.isSome

def violatesVariant (b : Block) : Bool := b.variant.isSome

end Block

namespace CyclicProcess

variable {M S : Type} {p : CyclicProcess M S}

/-- The analyzer's line for a place where the invariant does not hold. -/
def invariantViolation (p : CyclicProcess M S) (side : String) (number : Nat) (c : Config M S) :
    Option String :=
  if p.holds c then none
  else some s!"INVARIANT VIOLATED {side} iteration {number}: {p.describe c.memory c.state}"

/-- The analyzer's line for a turn that did not make the variant smaller. -/
def variantViolation (p : CyclicProcess M S) (t : Turn M S) : Option String :=
  let earlier := p.measure t.before
  let later := p.measure t.after
  if later < earlier then none
  else some s!"VARIANT VIOLATED: {later.plain} did not decrease from {earlier.plain}"

/-- The block of the turn with this number. Once a turn has aborted, nothing more is said of it. -/
def block (p : CyclicProcess M S) (number : Nat) (t : Turn M S) : Block where
  invariantBefore := p.invariantViolation "before" number t.before
  body := t.moved.lines
  invariantAfter := if t.aborted then none else p.invariantViolation "after" number t.after
  variant := if t.aborted then none else p.variantViolation t
  iteration :=
    if t.aborted then none
    else some (p.iterationLine t.after.memory number t.before.state t.after.state
      (p.measure t.after))

/-! ## One block -/

theorem isSome_invariantViolation (side : String) (number : Nat) (c : Config M S) :
    (p.invariantViolation side number c).isSome = !p.holds c := by
  rw [invariantViolation]
  cases p.holds c <;> rfl

theorem violatesInvariant_block (number : Nat) (t : Turn M S) :
    (p.block number t).violatesInvariant = !p.keepsInvariant t := by
  simp only [Block.violatesInvariant, block, keepsInvariant, Bool.not_and, Bool.not_or,
    isSome_invariantViolation]
  cases t.aborted with
  | true => rfl
  | false => simp [isSome_invariantViolation]

theorem violatesVariant_block (number : Nat) (t : Turn M S) :
    (p.block number t).violatesVariant = !p.decreasesVariant t := by
  simp only [Block.violatesVariant, block, decreasesVariant, variantViolation]
  by_cases hless : p.measure t.after < p.measure t.before <;> cases t.aborted <;> simp [hless]

theorem isSome_iteration_block (number : Nat) (t : Turn M S) :
    (p.block number t).iteration.isSome = !t.aborted := by
  rw [block]
  cases t.aborted <;> rfl

theorem invariantLines_eq (side : String) (number : Nat) (c : Config M S) :
    p.invariantLines side number c.memory c.state = (p.invariantViolation side number c).toList := by
  rw [invariantLines, invariantViolation, holds]
  split <;> rfl

theorem variantLines_eq (t : Turn M S) :
    variantLines (p.measure t.before) (p.measure t.after) = (p.variantViolation t).toList := by
  simp only [variantLines, variantViolation]
  split <;> rfl

/-- **A turn writes its block.** -/
theorem lines_iterate (number : Nat) (c : Config M S) :
    (p.iterate number c.memory c.state).lines = (p.block number (p.turn c)).lines := by
  have hafter := invariantLines_eq (p := p) "after" number (p.turn c).after
  have hvariant := variantLines_eq (p := p) (p.turn c)
  cases h : (p.step c.memory c.state).step with
  | abort next =>
    have habort : (p.turn c).aborted = true := by simp [turn, Turn.aborted, h, Step.isAbort]
    simp only [iterate, h, block, Block.lines, habort, if_true, invariantLines_eq, Option.toList_none,
      List.append_nil]
    rfl
  | proceed next =>
    have hgoes : (p.turn c).aborted = false := by simp [turn, Turn.aborted, h, Step.isAbort]
    have hstate : (p.turn c).after = ⟨(p.step c.memory c.state).memory, next⟩ := by
      simp [turn, Turn.after, h, Step.state]
    rw [hstate] at hafter hvariant
    simp only [iterate, h, block, Block.lines, hgoes, Bool.false_eq_true, if_false, hstate,
      ← hvariant, ← hafter, ← invariantLines_eq, Option.toList_some]
    rfl

/-! ## All blocks -/

/-- The blocks of a run, in order; the turns are numbered on from `done`. -/
def blocks (p : CyclicProcess M S) (done : Nat) (turns : List (Turn M S)) : List Block :=
  turns.mapIdx fun i t => p.block (done + i + 1) t

theorem blocks_cons (done : Nat) (t : Turn M S) (turns : List (Turn M S)) :
    p.blocks done (t :: turns) = p.block (done + 1) t :: p.blocks (done + 1) turns := by
  simp only [blocks, List.mapIdx_cons, Nat.add_zero]
  congr 2
  funext i
  rw [show done + (i + 1) + 1 = done + 1 + i + 1 by omega]

/-- **The recorded trace is the blocks, one after another.** -/
theorem trace_replay {turns : List (Turn M S)} (hturns : ∀ t ∈ turns, p.turn t.before = t)
    (r : Progress M S) : (p.replay r turns).trace.toList =
      r.trace.toList ++ (p.blocks r.iterations turns).flatMap Block.lines := by
  induction turns generalizing r with
  | nil => simp [replay, blocks]
  | cons t turns ih =>
    have hrest := ih (fun u hu => hturns u (by simp [hu])) (p.record r t.before)
    have htrace : (p.record r t.before).trace.toList =
        r.trace.toList ++ (p.block (r.iterations + 1) t).lines := by
      rw [record, Progress.extend, lines_iterate, hturns t (by simp)]
      simp
    simp only [replay, List.foldl_cons] at hrest ⊢
    rw [hrest, htrace, blocks_cons, List.flatMap_cons, List.append_assoc]
    rfl

theorem blocks_start (turns : List (Turn M S)) :
    p.blocks p.start.iterations turns = turns.mapIdx fun i t => p.block (i + 1) t := by
  simp only [blocks, start, Nat.zero_add]

theorem map_blocks {α : Type} {f : Block → α} {g : Turn M S → α}
    (h : ∀ number t, f (p.block number t) = g t) (done : Nat) (turns : List (Turn M S)) :
    (p.blocks done turns).map f = turns.map g := by
  induction turns generalizing done with
  | nil => rfl
  | cons t turns ih => rw [blocks_cons, List.map_cons, List.map_cons, h, ih]

theorem all_eq_false_iff {shown : Block → Bool} {holds : Turn M S → Bool}
    (h : ∀ number t, shown (p.block number t) = !holds t) (done : Nat) (turns : List (Turn M S)) :
    turns.all holds = false ↔ ∃ b ∈ p.blocks done turns, shown b = true := by
  have hany : (p.blocks done turns).any shown = turns.any (!holds ·) := by
    simpa only [List.any_map, Function.id_comp] using congrArg (·.any id) (map_blocks h done turns)
  rw [← List.any_eq_true, hany, List.all_eq_not_any_not, Bool.not_eq_false']

/-! ## Where a run aborts -/

theorem Run.proceeds_before_last {c turns last} (run : p.Run c turns last) :
    ∀ t ∈ turns.dropLast, t.aborted = false := by
  induction run with
  | ended _ => simp
  | aborted _ _ => simp
  | @went c turns last _ proceed _ ih =>
    intro t ht
    cases turns with
    | nil => simp at ht
    | cons u turns =>
      rw [List.dropLast_cons_cons, List.mem_cons] at ht
      rcases ht with rfl | ht
      · exact proceed
      · exact ih t ht

theorem Run.goesOn_before_last {c turns last} (run : p.Run c turns last) :
    ∀ t ∈ turns.dropLast, p.goesOn t.after = true := by
  induction run with
  | ended _ => simp
  | aborted _ _ => simp
  | @went c turns last _ _ rest ih =>
    intro t ht
    cases rest with
    | ended _ => simp at ht
    | aborted go _ =>
      obtain rfl : t = p.turn c := by simpa using ht
      exact go
    | went go _ _ =>
      rw [List.dropLast_cons_cons, List.mem_cons] at ht
      rcases ht with rfl | ht
      · exact go
      · exact ih t ht

theorem aborted_replay {turns : List (Turn M S)} (hturns : ∀ t ∈ turns, p.turn t.before = t) :
    (p.replay p.start turns).outcome = .safetyAborted ↔
      ∃ t, turns.getLast? = some t ∧ t.aborted = true := by
  rw [outcome_replay hturns]
  cases turns.getLast? with
  | none => simp [start]
  | some t => cases ht : t.aborted <;> simp [ht]

theorem Run.length_eq {c turns last} (run : p.Run c turns last) :
    turns.length = turns.countP (!·.aborted) +
      if ∃ t, turns.getLast? = some t ∧ t.aborted = true then 1 else 0 := by
  induction run with
  | ended _ => simp
  | aborted _ abort => simp [abort]
  | @went c turns last _ proceed _ ih =>
    rw [List.length_cons, ih, List.countP_cons_of_pos (by simp [proceed])]
    cases turns with
    | nil => simp [proceed]
    | cons t turns =>
      rw [List.getLast?_cons_cons]
      omega

/-! ## Iteration lines -/

theorem isSome_iteration_blocks (done : Nat) (turns : List (Turn M S)) :
    (p.blocks done turns).map (·.iteration.isSome) = turns.map (!·.aborted) :=
  map_blocks (f := fun b => b.iteration.isSome) (g := fun t => !t.aborted) isSome_iteration_block
    done turns

theorem Run.iteration_before_last {c turns last} (run : p.Run c turns last) (done : Nat) :
    ∀ b ∈ (p.blocks done turns).dropLast, b.iteration.isSome = true := by
  intro b hb
  have hmem : b.iteration.isSome ∈ ((p.blocks done turns).map (·.iteration.isSome)).dropLast := by
    rw [← List.map_dropLast]
    exact List.mem_map_of_mem hb
  rw [isSome_iteration_blocks, ← List.map_dropLast] at hmem
  obtain ⟨t, ht, heq⟩ := List.mem_map.1 hmem
  rw [← heq, run.proceeds_before_last t ht]
  rfl

theorem iteration_last {done : Nat} {turns : List (Turn M S)} {b : Block}
    (hb : (p.blocks done turns).getLast? = some b) :
    b.iteration = none ↔ ∃ t, turns.getLast? = some t ∧ t.aborted = true := by
  have hsome : some b.iteration.isSome = turns.getLast?.map (!·.aborted) := by
    rw [← List.getLast?_map, ← isSome_iteration_blocks done, List.getLast?_map, hb]
    rfl
  obtain ⟨t, ht, heq⟩ := Option.map_eq_some_iff.1 hsome.symm
  rw [ht, ← Option.not_isSome_iff_eq_none, ← heq]
  simp

/-- There are as many iteration lines as turns, but for a turn that aborts. -/
theorem Run.countP_iteration {c turns last} (run : p.Run c turns last) (done : Nat) :
    turns.length = (p.blocks done turns).countP (·.iteration.isSome) +
      if ∃ t, turns.getLast? = some t ∧ t.aborted = true then 1 else 0 := by
  have hcount : (p.blocks done turns).countP (·.iteration.isSome) =
      turns.countP (!·.aborted) := by
    simpa only [List.countP_map, Function.id_comp] using
      congrArg (·.countP id) (isSome_iteration_blocks (p := p) done turns)
  rw [hcount]
  exact run.length_eq

/-! ## Lines of the bodies -/

/-- A line that the analyzer writes in its own words. -/
inductive AnalyzerLine : String → Prop
  | blank : AnalyzerLine ""
  | heading : AnalyzerLine "ANALYSIS RESULT:"
  | invariant (side : String) (number : Nat) (place : String) :
      AnalyzerLine s!"INVARIANT VIOLATED {side} iteration {number}: {place}"
  | variant (earlier later : Binary64) :
      AnalyzerLine s!"VARIANT VIOLATED: {later.plain} did not decrease from {earlier.plain}"
  | maintained (flag : Bool) : AnalyzerLine ("  - Invariant maintained: " ++ yesNo flag)
  | valid (flag : Bool) : AnalyzerLine ("  - Variant valid: " ++ yesNo flag)

/-- No line of this kind is written around the bodies. -/
structure OnlyInBodies (p : CyclicProcess M S) (kind : String → Bool) : Prop where
  preamble : ∀ l ∈ p.preamble, kind l = false
  analyzer : ∀ l, AnalyzerLine l → kind l = false
  iteration : ∀ m number before after variant,
    kind (p.iterationLine m number before after variant) = false
  summary : ∀ m number s, ∀ l ∈ p.summary m number s, kind l = false

/-- How the analyzer's lines begin, those that say anything. -/
def analyzerWords : List String :=
  [ "ANALYSIS RESULT:", "INVARIANT VIOLATED ", "VARIANT VIOLATED: ", "  - Invariant maintained: ",
    "  - Variant valid: " ]

theorem AnalyzerLine.startsWith_eq_false {beginning line : String} (hline : AnalyzerLine line)
    (hempty : Text.startsWith beginning "" = false)
    (hwords : ∀ words ∈ analyzerWords, Text.Apart beginning words) :
    Text.startsWith beginning line = false := by
  cases hline with
  | blank => exact hempty
  | heading => exact (hwords "ANALYSIS RESULT:" (by decide)).startsWith
  | invariant side number place =>
    have h := hwords "INVARIANT VIOLATED " (by decide)
    simp only [String.append_assoc]
    exact h.startsWith_append _
  | variant earlier later =>
    have h := hwords "VARIANT VIOLATED: " (by decide)
    simp only [String.append_assoc]
    exact h.startsWith_append _
  | maintained flag => exact (hwords "  - Invariant maintained: " (by decide)).startsWith_append _
  | valid flag => exact (hwords "  - Variant valid: " (by decide)).startsWith_append _

section

variable {kind : String → Bool} (only : p.OnlyInBodies kind)

include only

theorem filter_invariantViolation (side : String) (number : Nat) (c : Config M S) :
    (p.invariantViolation side number c).toList.filter kind = [] := by
  rw [invariantViolation]
  split
  · rfl
  · exact List.filter_cons_of_neg (Bool.eq_false_iff.1 (only.analyzer _ (.invariant side number _)))

theorem filter_lines_block (number : Nat) (t : Turn M S) :
    (p.block number t).lines.filter kind = t.moved.lines.filter kind := by
  have hvariant : (p.variantViolation t).toList.filter kind = [] := by
    rw [variantViolation]
    split
    · rfl
    · exact List.filter_cons_of_neg (Bool.eq_false_iff.1 (only.analyzer _ (.variant _ _)))
  simp only [Block.lines, block, List.filter_append, filter_invariantViolation only]
  cases t.aborted with
  | true => simp
  | false => simp [filter_invariantViolation only, hvariant, only.iteration]

/-- What no body but the last has written stands in no block but the last. -/
theorem filter_lines_before_last {turns : List (Turn M S)}
    (h : ∀ t ∈ turns.dropLast, t.moved.lines.filter kind = []) (done : Nat) :
    ∀ b ∈ (p.blocks done turns).dropLast, b.lines.filter kind = [] := by
  intro b hb
  have hmem := List.mem_map_of_mem (f := fun b : Block => b.lines.filter kind) hb
  rw [List.map_dropLast, map_blocks (filter_lines_block only), ← List.map_dropLast] at hmem
  obtain ⟨t, ht, heq⟩ := List.mem_map.1 hmem
  rw [← heq, h t ht]

theorem filter_closing (r : Progress M S) : (p.closing r).filter kind = [] := by
  rw [closing, List.filter_eq_nil_iff]
  simp only [List.mem_append, List.mem_cons, List.not_mem_nil, or_false, Bool.not_eq_true]
  rintro l ((((rfl | rfl) | hsummary) | rfl | rfl))
  · exact only.analyzer _ .blank
  · exact only.analyzer _ .heading
  · exact only.summary _ _ _ l hsummary
  · exact only.analyzer _ (.maintained _)
  · exact only.analyzer _ (.valid _)

/-- **Lines of a kind that only bodies write** stand in the trace as the bodies wrote them. -/
theorem filter_trace {turns : List (Turn M S)} (hturns : ∀ t ∈ turns, p.turn t.before = t) :
    (p.judge (p.replay p.start turns)).trace.filter kind =
      (turns.flatMap (·.moved.lines)).filter kind := by
  have hblocks (done : Nat) (turns : List (Turn M S)) :
      ((p.blocks done turns).flatMap Block.lines).filter kind =
        (turns.flatMap (·.moved.lines)).filter kind := by
    induction turns generalizing done with
    | nil => rfl
    | cons t turns ih =>
      simp only [blocks_cons, List.flatMap_cons, List.filter_append, filter_lines_block only, ih]
  have hstart : p.start.trace.toList.filter kind = [] := by
    rw [List.filter_eq_nil_iff]
    intro l hl
    rcases List.mem_append.1 (show l ∈ p.preamble ++ [""] from hl) with hl | hl
    · simp [only.preamble l hl]
    · simp [List.mem_singleton.1 hl, only.analyzer "" .blank]
  simp only [judge, List.filter_append, filter_closing only, trace_replay hturns, hstart, hblocks,
    List.nil_append, List.append_nil]

end

/-! ## The trace -/

/-- **The trace tells the whole run.** It is the preamble, a block for each turn in order, and the
summary with both flags. Every block but the last has its iteration line, and the last one has it
unless the run aborted; a flag is down exactly if some block has the analyzer's line for it, and
the conclusion is the one for both flags. -/
theorem analyze_trace {a : Analysis} (h : p.analyze = .ok a) :
    ∃ turns last, p.Run p.origin turns last ∧
      let blocks := turns.mapIdx fun i t => p.block (i + 1) t
      a.trace = p.preamble ++ [""] ++ blocks.flatMap Block.lines ++
        ["", "ANALYSIS RESULT:"] ++ p.summary last.memory turns.length last.state ++
        [ "  - Invariant maintained: " ++ (if a.invariantMaintained then "YES" else "NO"),
          "  - Variant valid: " ++ (if a.variantValid then "YES" else "NO") ] ∧
      (a.invariantMaintained = false ↔ ∃ b ∈ blocks, b.violatesInvariant = true) ∧
      (a.variantValid = false ↔ ∃ b ∈ blocks, b.violatesVariant = true) ∧
      a.conclusion = (if a.invariantMaintained ∧ a.variantValid then
        "Loop is correct: invariant maintained, variant decreases" else "Loop contains errors") ∧
      (∀ b ∈ blocks.dropLast, b.iteration.isSome = true) ∧
      (∀ b, blocks.getLast? = some b → (b.iteration = none ↔ a.outcome = .safetyAborted)) ∧
      a.iterations = blocks.countP (·.iteration.isSome) +
        if a.outcome = .safetyAborted then 1 else 0 := by
  obtain ⟨turns, last, run, -, rfl, hlast⟩ := run_of_analyze_eq_ok h
  have hturns := run.turn_before
  have habort := aborted_replay hturns
  obtain ⟨hinv, hvar⟩ := flags_replay hturns p.start
  rw [show p.start.invariantMaintained = true from rfl, Bool.true_and] at hinv
  rw [show p.start.variantValid = true from rfl, Bool.true_and] at hvar
  have hiterations : (p.replay p.start turns).iterations = turns.length := by
    rw [iterations_replay, start, Nat.zero_add]
  refine ⟨turns, last, run, ?_⟩
  rw [← blocks_start]
  refine ⟨?_, ?_, ?_, ?_, run.iteration_before_last _, ?_, ?_⟩
  · have htrace := trace_replay hturns p.start
    rw [show p.start.trace.toList = p.preamble ++ [""] from rfl] at htrace
    subst hlast
    simp only [judge, closing, htrace, hiterations, yesNo, List.append_assoc, Progress.config]
  · rw [judge, hinv]
    exact all_eq_false_iff violatesInvariant_block _ _
  · rw [judge, hvar]
    exact all_eq_false_iff violatesVariant_block _ _
  · simp only [Analysis.conclusion, Analysis.isCorrect, Bool.and_eq_true]
  · intro b hb
    rw [judge, habort]
    exact iteration_last hb
  · simp only [judge, hiterations, habort]
    exact run.countP_iteration _

/-- The script 3, 4, 1 with 3.5 at most, aborting on its last value: the first block has both
violations and an iteration line, and the second has a violation before the abort and no more. -/
theorem analyze_trace_abort :
    let scripted := (Scripted.mk #[3, 4, 1] 0 3.5 (some 2) none).process
    scripted.analyze.toOption.map (·.trace) = some
        [ "", "INVARIANT VIOLATED after iteration 1: x[1]=4",
          "VARIANT VIOLATED: 4 did not decrease from 3", "Iteration 1: 3 -> 4 | variant: 4.00",
          "INVARIANT VIOLATED before iteration 2: x[1]=4", "abort at 2",
          "", "ANALYSIS RESULT:", "  - 2 iterations, x[2]=1",
          "  - Invariant maintained: NO", "  - Variant valid: NO" ] ∧
      ∃ turns last, scripted.Run scripted.origin turns last ∧
        (turns.mapIdx fun i t => scripted.block (i + 1) t).countP (·.iteration.isSome) = 1 := by
  intro scripted
  refine ⟨by decide +kernel, ?_⟩
  have hresult : (scripted.analyze.toOption.map fun a => (a.iterations, a.outcome)) =
      some (2, .safetyAborted) := by decide +kernel
  cases ha : scripted.analyze with
  | error fault => simp [ha, Except.toOption] at hresult
  | ok a =>
    simp only [ha, Except.toOption, Option.map_some, Option.some.injEq, Prod.mk.injEq] at hresult
    obtain ⟨turns, last, run, -, -, -, -, -, -, hcount⟩ := analyze_trace ha
    rw [hresult.1, hresult.2, if_pos rfl] at hcount
    exact ⟨turns, last, run, by omega⟩

end CyclicProcess

end Barista
