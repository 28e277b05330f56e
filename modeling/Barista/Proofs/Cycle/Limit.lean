/-
The loop is given up exactly at its limit.

The limit is looked at after the guard and before the body, so a run that
needs every turn it gets is still judged, and so is one that aborts in the
last of them (`analyze_of_run`); what is given up could be followed to the
limit and would have gone on (`analyze_of_path`). Nothing but the turns of
that run or path has a say: `altered` puts another body or another bound in
the process, and if the body agrees on those turns, the run is the same run
(`Run.altered`) with the same trace (`replay_altered`).
-/
import Barista.Cycle.Heating
import Barista.Cycle.Scripted
import Barista.Proofs.Cycle.Verdict

namespace Barista.CyclicProcess

variable {M S : Type} {p : CyclicProcess M S}

/-! ## Another body, another bound -/

/-- The process with another body and another bound on its iterations. -/
def altered (p : CyclicProcess M S) (body : M → S → Moved M S) (bound : Option Nat) :
    CyclicProcess M S :=
  { p with step := body, iterationBound := bound }

variable {body : M → S → Moved M S} {bound : Option Nat}

theorem turn_altered {t : Turn M S} (h : body t.before.memory t.before.state = t.moved) :
    (p.altered body bound).turn t.before = t := by
  show Turn.mk t.before (body t.before.memory t.before.state) = t
  rw [h]

theorem Run.altered {c turns last} (run : p.Run c turns last)
    (h : ∀ t ∈ turns, body t.before.memory t.before.state = t.moved) :
    (p.altered body bound).Run c turns last := by
  induction run with
  | ended stop => exact .ended stop
  | @aborted c go abort =>
    have hturn : (p.altered body bound).turn c = p.turn c := turn_altered (h (p.turn c) (by simp))
    have := Run.aborted (p := p.altered body bound) (c := c) go (by rwa [hturn])
    rwa [hturn] at this
  | @went c turns last go proceed _ ih =>
    have hturn : (p.altered body bound).turn c = p.turn c := turn_altered (h (p.turn c) (by simp))
    have hrest := ih fun t ht => h t (List.mem_cons_of_mem _ ht)
    have := Run.went (p := p.altered body bound) (c := c) go (by rwa [hturn]) (by rwa [hturn])
    rwa [hturn] at this

theorem Path.altered {c turns last} (path : p.Path c turns last)
    (h : ∀ t ∈ turns, body t.before.memory t.before.state = t.moved) :
    (p.altered body bound).Path c turns last := by
  induction path with
  | here => exact .here
  | @went c turns last go proceed _ ih =>
    have hturn : (p.altered body bound).turn c = p.turn c := turn_altered (h (p.turn c) (by simp))
    have hrest := ih fun t ht => h t (List.mem_cons_of_mem _ ht)
    have := Path.went (p := p.altered body bound) (c := c) go (by rwa [hturn]) (by rwa [hturn])
    rwa [hturn] at this

theorem replay_altered {turns : List (Turn M S)} (hturns : ∀ t ∈ turns, p.turn t.before = t)
    (h : ∀ t ∈ turns, body t.before.memory t.before.state = t.moved) (r : Progress M S) :
    (p.altered body bound).replay r turns = p.replay r turns := by
  induction turns generalizing r with
  | nil => rfl
  | cons t turns ih =>
    have hstep : body t.before.memory t.before.state = p.step t.before.memory t.before.state := by
      rw [h t (by simp)]
      exact congrArg Turn.moved (hturns t (by simp)).symm
    have hrecord : (p.altered body bound).record r t.before = p.record r t.before := by
      simp only [record, iterate, CyclicProcess.altered, hstep]
      rfl
    simp only [replay, List.foldl_cons] at ih ⊢
    rw [hrecord]
    exact ih (fun u hu => hturns u (by simp [hu])) (fun u hu => h u (by simp [hu])) _

/-! ## What decides the result -/

theorem analyze_of_refused {fault : Fault} (h : p.checkParameters = .error fault) :
    p.analyze = .error fault := by
  simp [analyze, h, bind, Except.bind]

theorem analyze_altered_of_run (hc : p.checkParameters = .ok ()) {turns last}
    (run : p.Run p.origin turns last) (hlen : turns.length ≤ p.limit)
    (h : ∀ t ∈ turns, body t.before.memory t.before.state = t.moved)
    (hlimit : turns.length ≤ (p.altered body bound).limit) :
    (p.altered body bound).analyze = p.analyze := by
  have hrun : (p.altered body bound).Run (p.altered body bound).origin turns last := run.altered h
  have hreplay : (p.altered body bound).replay (p.altered body bound).start turns =
      p.replay p.start turns := replay_altered run.turn_before h p.start
  rw [analyze_of_run hc run hlen, analyze_of_run (p := p.altered body bound) hc hrun hlimit, hreplay]
  rfl

theorem analyze_altered_of_path (hc : p.checkParameters = .ok ()) {turns last}
    (path : p.Path p.origin turns last) (hlen : turns.length = p.limit)
    (hgo : p.goesOn last = true)
    (h : ∀ t ∈ turns, body t.before.memory t.before.state = t.moved) :
    (p.altered body p.iterationBound).analyze = p.analyze := by
  have hpath : (p.altered body p.iterationBound).Path (p.altered body p.iterationBound).origin
    turns last := path.altered h
  rw [analyze_of_path hc path hlen hgo]
  exact analyze_of_path (p := p.altered body p.iterationBound) hc hpath hlen hgo

/-- **As many bodies as the limit decide the result**, and a judgement counts them. -/
theorem decided_within_limit (hc : p.checkParameters = .ok ()) :
    ∃ turns : List (Turn M S), turns.length ≤ p.limit ∧ (∀ t ∈ turns, p.turn t.before = t) ∧
      (∀ a, p.analyze = .ok a → a.iterations = turns.length) ∧
      ∀ body, (∀ t ∈ turns, body t.before.memory t.before.state = t.moved) →
        (p.altered body p.iterationBound).analyze = p.analyze := by
  rcases run_or_path p p.limit p.origin with ⟨turns, last, run, hlen⟩ | ⟨turns, last, path, hlen, hgo⟩
  · refine ⟨turns, hlen, run.turn_before, ?_, fun body h =>
      analyze_altered_of_run hc run hlen h hlen⟩
    intro a ha
    rw [analyze_of_run hc run hlen] at ha
    injection ha with ha
    simp only [← ha, judge, iterations_replay, start, Nat.zero_add]
  · refine ⟨turns, Nat.le_of_eq hlen, path.turn_before, ?_, fun body h =>
      analyze_altered_of_path hc path hlen hgo h⟩
    intro a ha
    rw [analyze_of_path hc path hlen hgo] at ha
    cases ha

/-- A judgement stays the same with a larger bound. -/
theorem analyze_mono {a : Analysis} (h : p.analyze = .ok a)
    (hle : p.limit ≤ (p.altered p.step bound).limit) : (p.altered p.step bound).analyze = .ok a := by
  obtain ⟨turns, last, run, hlen, -, -⟩ := run_of_analyze_eq_ok h
  have hbodies : ∀ t ∈ turns, p.step t.before.memory t.before.state = t.moved := fun t ht =>
    congrArg Turn.moved (run.turn_before t ht)
  rw [analyze_altered_of_run (accepted_of_analyze_eq_ok h) run hlen hbodies (Nat.le_trans hlen hle), h]

/-! ## The limit -/

/-- **The loop is given up exactly at its limit.** A refused process is never run: its fault does
not depend on its body. Of an accepted one, no more bodies than the limit are looked at, and a
judgement counts those that are; it is given up if and only if so many turns all proceed and the
guard still holds; a run that ends in so many turns, the last of them aborting or not, is judged;
and a judgement stays the same, its trace included, under any bound that leaves the limit as large. -/
theorem analyze_limit (p : CyclicProcess M S) :
    let limit := p.iterationBound.getD 100000
    (∀ fault, p.checkParameters = .error fault →
      ∀ body, ({ p with step := body } : CyclicProcess M S).analyze = .error fault) ∧
    (p.checkParameters = .ok () →
      (∃ turns : List (Turn M S), turns.length ≤ limit ∧ (∀ t ∈ turns, p.turn t.before = t) ∧
        (∀ a, p.analyze = .ok a → a.iterations = turns.length) ∧
        ∀ body, (∀ t ∈ turns, body t.before.memory t.before.state = t.moved) →
          ({ p with step := body } : CyclicProcess M S).analyze = p.analyze) ∧
      (∀ fault, p.analyze = .error fault ↔
        ∃ turns last, p.Path p.origin turns last ∧ turns.length = limit ∧
          p.goesOn last = true ∧ fault = .iterationLimit (p.name last.memory) limit) ∧
      ∀ turns last, p.Run p.origin turns last → turns.length ≤ limit →
        ∃ a, p.analyze = .ok a ∧ a.iterations = turns.length) ∧
    ∀ bound : Option Nat, limit ≤ bound.getD 100000 →
      ∀ a, p.analyze = .ok a →
        ({ p with iterationBound := bound } : CyclicProcess M S).analyze = .ok a := by
  intro limit
  refine ⟨fun fault hc body => analyze_of_refused hc, fun hc => ⟨?_, ?_, ?_⟩, ?_⟩
  · exact decided_within_limit hc
  · intro fault
    constructor
    · intro h
      rcases analyze_ok_or_path hc with ⟨a, ha⟩ | ⟨turns, last, path, hlen, hgo⟩
      · rw [ha] at h
        cases h
      · rw [analyze_of_path hc path hlen hgo] at h
        injection h with h
        exact ⟨turns, last, path, hlen, hgo, h.symm⟩
    · rintro ⟨turns, last, path, hlen, hgo, rfl⟩
      exact analyze_of_path hc path hlen hgo
  · intro turns last run hlen
    refine ⟨_, analyze_of_run hc run hlen, ?_⟩
    simp only [judge, iterations_replay, start, Nat.zero_add]
  · intro bound hle a h
    exact analyze_mono h hle

/-- The script 3, 2, 1 that aborts on its third value: the abort is in the second turn, so the run
is judged with two turns and with more, and given up with one. No temperature is no number. -/
theorem analyze_limit_abort :
    let scripted (bound : Nat) := (Scripted.mk #[3, 2, 1] 0 9 (some 2) (some bound)).process
    (∃ a, (scripted 2).analyze = .ok a ∧ (scripted 7).analyze = .ok a) ∧
      (scripted 1).analyze = .error (.iterationLimit "scripted" 1) ∧
      ∀ body, ({ (WaterHeating.mk .nan 95 5 98).process with step := body } :
        CyclicProcess Unit Binary64).analyze = .error (.invalidParameter "current temperature" .nan) := by
  intro scripted
  obtain ⟨-, -, hmore⟩ := analyze_limit (scripted 2)
  obtain ⟨-, hgiven, -⟩ := analyze_limit (scripted 1)
  obtain ⟨hrefused, -⟩ := analyze_limit (WaterHeating.mk .nan 95 5 98).process
  refine ⟨?_, ?_, hrefused _ rfl⟩
  · have hjudged : (scripted 2).analyze.isOk = true := by decide +kernel
    cases ha : (scripted 2).analyze with
    | error fault => rw [ha] at hjudged; cases hjudged
    | ok a => exact ⟨a, rfl, hmore (some 7) (by decide) a ha⟩
  · refine ((hgiven rfl).2.1 _).2 ⟨_, _, .went ?_ ?_ .here, rfl, ?_, rfl⟩ <;> decide +kernel

end Barista.CyclicProcess
