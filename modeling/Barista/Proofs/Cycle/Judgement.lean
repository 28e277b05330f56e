/-
What a judgement says of the run that it is made on.

`CyclicProcess.Judged` gathers what the modules before have read off the
accumulated turns, so that a loop of its own is settled by its run alone: a
judgement is made on some run (`exists_judged`), and a run that is short
enough gets one (`exists_judged_of_run`).
-/
import Barista.Proofs.Cycle.Trace

namespace Barista.CyclicProcess

variable {M S : Type} {p : CyclicProcess M S} {a : Analysis} {turns : List (Turn M S)}
  {last : Config M S}

/-- The judgement on a run: its length, its end, what its turns kept, and what they wrote. -/
structure Judged (p : CyclicProcess M S) (turns : List (Turn M S)) (last : Config M S)
    (a : Analysis) : Prop where
  iterations : a.iterations = turns.length
  aborted : a.outcome = .safetyAborted ↔ ∃ t, turns.getLast? = some t ∧ t.aborted = true
  finalValue : a.finalValue = p.finalValue last.memory last.state
  invariant : a.invariantMaintained = turns.all p.keepsInvariant
  variant : a.variantValid = turns.all p.decreasesVariant
  written : ∀ kind, p.OnlyInBodies kind →
    a.trace.filter kind = (turns.flatMap (·.moved.lines)).filter kind

theorem Run.judged (run : p.Run p.origin turns last)
    (hlast : (p.replay p.start turns).config = last) :
    p.Judged turns last (p.judge (p.replay p.start turns)) := by
  have hturns := run.turn_before
  obtain ⟨hinvariant, hvariant⟩ := flags_judge hturns
  refine ⟨?_, aborted_replay hturns, ?_, hinvariant, hvariant, fun _ only => filter_trace only hturns⟩
  · simp [judge, iterations_replay, start]
  · subst hlast
    rfl

theorem exists_judged (ha : p.analyze = .ok a) :
    ∃ turns last, p.Run p.origin turns last ∧ p.Judged turns last a := by
  obtain ⟨turns, last, run, -, rfl, hlast⟩ := run_of_analyze_eq_ok ha
  exact ⟨turns, last, run, run.judged hlast⟩

theorem exists_judged_of_run (hc : p.checkParameters = .ok ()) (run : p.Run p.origin turns last)
    (hlen : turns.length ≤ p.limit) : ∃ a, p.analyze = .ok a ∧ p.Judged turns last a :=
  ⟨_, analyze_of_run hc run hlen,
    run.judged (runFor_of_run p.limit run hlen (config_start p)).2⟩

theorem Judged.completed (j : p.Judged turns last a) (h : ∀ t ∈ turns, t.aborted = false) :
    a.outcome = .completed := by
  cases hout : a.outcome with
  | completed => rfl
  | safetyAborted =>
    obtain ⟨t, ht, habort⟩ := j.aborted.1 hout
    simp [h t (List.mem_of_getLast? ht)] at habort

end Barista.CyclicProcess
