/-
Runs of a cyclic process, and how the analyzer's loop follows them.

A run is said without the analyzer: `CyclicProcess.Run` is the sequence of
bodies run while the guard holds, ending when the guard fails or a body
aborts; `CyclicProcess.Path` is a run that has not ended yet. From every
place there is either a run of at most `n` turns or a path of `n` turns with
the guard still holding (`run_or_path`), so the loop's two results are
exactly these two cases: `runFor_of_run` and `runFor_of_path`.
-/
import Barista.Cycle.Analysis
import Mathlib.Logic.Function.Iterate

namespace Barista

/-- The state that a body left, however it ended. -/
def Step.state {S : Type} : Step S → S
  | .proceed next => next
  | .abort next => next

def Step.isAbort {S : Type} : Step S → Bool
  | .proceed _ => false
  | .abort _ => true

/-- Where a loop stands between two bodies. -/
structure Config (M S : Type) where
  memory : M
  state : S

/-- A body that was run: where the loop stood, and what the body left. -/
structure Turn (M S : Type) where
  before : Config M S
  moved : Moved M S

namespace Turn

variable {M S : Type}

/-- Where the loop stands after the body. -/
def after (t : Turn M S) : Config M S := ⟨t.moved.memory, t.moved.step.state⟩

def aborted (t : Turn M S) : Bool := t.moved.step.isAbort

end Turn

namespace CyclicProcess

variable {M S : Type} (p : CyclicProcess M S)

def goesOn (c : Config M S) : Bool := p.guard c.memory c.state

def holds (c : Config M S) : Bool := p.invariant c.memory c.state

def measure (c : Config M S) : Binary64 := p.variant c.memory c.state

def turn (c : Config M S) : Turn M S := ⟨c, p.step c.memory c.state⟩

/-- Where the loop starts. -/
def origin : Config M S := ⟨p.memory, p.initial⟩

/-- Bodies run while the guard holds, up to the end: the guard fails, or a body aborts. -/
inductive Run : Config M S → List (Turn M S) → Config M S → Prop
  | ended {c} (stop : p.goesOn c = false) : Run c [] c
  | aborted {c} (go : p.goesOn c = true) (abort : (p.turn c).aborted = true) :
      Run c [p.turn c] (p.turn c).after
  | went {c turns last} (go : p.goesOn c = true) (proceed : (p.turn c).aborted = false)
      (rest : Run (p.turn c).after turns last) : Run c (p.turn c :: turns) last

/-- Bodies run while the guard holds, none of them aborting; the run may go on from here. -/
inductive Path : Config M S → List (Turn M S) → Config M S → Prop
  | here {c} : Path c [] c
  | went {c turns last} (go : p.goesOn c = true) (proceed : (p.turn c).aborted = false)
      (rest : Path (p.turn c).after turns last) : Path c (p.turn c :: turns) last

variable {p}

theorem Run.unique {c turns last turns' last'} (h : p.Run c turns last)
    (h' : p.Run c turns' last') : turns = turns' ∧ last = last' := by
  induction h generalizing turns' last' with
  | ended stop =>
    cases h' with
    | ended _ => exact ⟨rfl, rfl⟩
    | aborted go _ => rw [stop] at go; cases go
    | went go _ _ => rw [stop] at go; cases go
  | aborted go abort =>
    cases h' with
    | ended stop => rw [stop] at go; cases go
    | aborted _ _ => exact ⟨rfl, rfl⟩
    | went _ proceed _ => rw [abort] at proceed; cases proceed
  | went go proceed _ ih =>
    cases h' with
    | ended stop => rw [stop] at go; cases go
    | aborted _ abort => rw [abort] at proceed; cases proceed
    | went _ _ rest =>
      obtain ⟨rfl, rfl⟩ := ih rest
      exact ⟨rfl, rfl⟩

/-- From every place a run ends within `left` turns, or it can be followed that far and the guard
still holds. -/
theorem run_or_path (p : CyclicProcess M S) (left : Nat) (c : Config M S) :
    (∃ turns last, p.Run c turns last ∧ turns.length ≤ left) ∨
      (∃ turns last, p.Path c turns last ∧ turns.length = left ∧ p.goesOn last = true) := by
  induction left generalizing c with
  | zero =>
    cases go : p.goesOn c with
    | false => exact .inl ⟨[], c, .ended go, Nat.le_refl _⟩
    | true => exact .inr ⟨[], c, .here, rfl, go⟩
  | succ left ih =>
    cases go : p.goesOn c with
    | false => exact .inl ⟨[], c, .ended go, Nat.zero_le _⟩
    | true =>
      cases proceed : (p.turn c).aborted with
      | true => exact .inl ⟨_, _, .aborted go proceed, by simp⟩
      | false =>
        rcases ih (p.turn c).after with ⟨turns, last, run, hlen⟩ | ⟨turns, last, path, hlen, hgo⟩
        · exact .inl ⟨_, _, .went go proceed run, by simpa using hlen⟩
        · exact .inr ⟨_, _, .went go proceed path, by simpa using hlen, hgo⟩

theorem Run.turn_before {c turns last} (run : p.Run c turns last) :
    ∀ t ∈ turns, p.turn t.before = t := by
  induction run with
  | ended _ => simp
  | aborted _ _ => simp [turn]
  | went _ _ _ ih =>
    intro t ht
    rcases List.mem_cons.1 ht with rfl | ht
    · rfl
    · exact ih t ht

theorem Run.of_stop {c turns last} (run : p.Run c turns last) (stop : p.goesOn c = false) :
    turns = [] ∧ last = c :=
  run.unique (.ended stop)

theorem Run.of_abort {c turns last} (run : p.Run c turns last) (go : p.goesOn c = true)
    (abort : (p.turn c).aborted = true) : turns = [p.turn c] ∧ last = (p.turn c).after :=
  run.unique (.aborted go abort)

/-- What every turn that proceeds keeps holds wherever a run has a turn. -/
theorem Run.forall_before {inv : Config M S → Prop}
    (hkept : ∀ c, inv c → p.goesOn c = true → (p.turn c).aborted = false → inv (p.turn c).after)
    {c turns last} (run : p.Run c turns last) (h : inv c) :
    ∀ t ∈ turns, inv t.before ∧ p.goesOn t.before = true := by
  induction run with
  | ended _ => simp
  | aborted go _ =>
    intro t ht
    rw [List.mem_singleton.1 ht]
    exact ⟨h, go⟩
  | @went c _ _ go proceed _ ih =>
    intro t ht
    rcases List.mem_cons.1 ht with rfl | ht
    · exact ⟨h, go⟩
    · exact ih (hkept c h go proceed) t ht

/-- It holds at the end of the run as well, or before the turn that aborted. -/
theorem Run.ends_with {inv : Config M S → Prop}
    (hkept : ∀ c, inv c → p.goesOn c = true → (p.turn c).aborted = false → inv (p.turn c).after)
    {c turns last} (run : p.Run c turns last) (h : inv c) :
    (∃ t, turns.getLast? = some t ∧ t.aborted = true ∧ t.after = last ∧ inv t.before ∧
        p.goesOn t.before = true) ∨
      ((∀ t ∈ turns, t.aborted = false) ∧ inv last ∧ p.goesOn last = false) := by
  induction run with
  | ended stop => exact .inr ⟨by simp, h, stop⟩
  | aborted go abort => exact .inl ⟨_, rfl, abort, rfl, h, go⟩
  | @went c turns _ go proceed _ ih =>
    rcases ih (hkept c h go proceed) with ⟨t, ht, habort⟩ | ⟨hall, hlast⟩
    · refine .inl ⟨t, ?_, habort⟩
      rw [List.getLast?_cons, ht]
      rfl
    · exact .inr ⟨List.forall_mem_cons.2 ⟨proceed, hall⟩, hlast⟩

theorem Path.turn_before {c turns last} (path : p.Path c turns last) :
    ∀ t ∈ turns, p.turn t.before = t := by
  induction path with
  | here => simp
  | went _ _ _ ih =>
    intro t ht
    rcases List.mem_cons.1 ht with rfl | ht
    · rfl
    · exact ih t ht

theorem Path.append {c turns mid turns' last} (path : p.Path c turns mid)
    (run : p.Run mid turns' last) : p.Run c (turns ++ turns') last := by
  induction path with
  | here => exact run
  | went go proceed _ ih => exact .went go proceed (ih run)

/-- Places of which each leads to the next are a path. -/
theorem Path.of_places {place : Nat → Config M S} {n : Nat}
    (h : ∀ i < n, p.goesOn (place i) = true ∧ (p.turn (place i)).aborted = false ∧
      (p.turn (place i)).after = place (i + 1)) :
    p.Path (place 0) ((List.range n).map fun i => p.turn (place i)) (place n) := by
  induction n generalizing place with
  | zero => exact .here
  | succ n ih =>
    obtain ⟨go, proceed, hnext⟩ := h 0 (by omega)
    have rest := @ih (fun i => place (i + 1)) fun i hi => h (i + 1) (by omega)
    rw [List.range_succ_eq_map, List.map_cons, List.map_map]
    exact .went go proceed (hnext ▸ rest)

theorem Run.of_places {place : Nat → Config M S} {n : Nat}
    (h : ∀ i < n, p.goesOn (place i) = true ∧ (p.turn (place i)).aborted = false ∧
      (p.turn (place i)).after = place (i + 1)) (stop : p.goesOn (place n) = false) :
    p.Run (place 0) ((List.range n).map fun i => p.turn (place i)) (place n) := by
  simpa using (Path.of_places h).append (.ended stop)

/-- What lets every body proceed and the guard hold lets the run be followed as far as one likes. -/
theorem exists_path {p : CyclicProcess M S} (inv : Config M S → Prop)
    (hinv : ∀ c, inv c → p.goesOn c = true ∧ (p.turn c).aborted = false ∧ inv (p.turn c).after)
    (n : Nat) {c : Config M S} (h : inv c) :
    ∃ turns last, p.Path c turns last ∧ turns.length = n ∧ p.goesOn last = true := by
  induction n generalizing c with
  | zero => exact ⟨[], c, .here, rfl, (hinv c h).1⟩
  | succ n ih =>
    obtain ⟨go, proceed, hnext⟩ := hinv c h
    obtain ⟨turns, last, path, hlen, hgo⟩ := ih hnext
    exact ⟨_, last, .went go proceed path, by simpa using hlen, hgo⟩

/-- A path that still goes on passes through the iterates of what its bodies do to the state. -/
theorem Path.goesOn_iterate {p : CyclicProcess Unit S} {f : S → S}
    (hf : ∀ s, p.goesOn ⟨(), s⟩ = true → (p.turn ⟨(), s⟩).aborted = false →
      p.goesOn (p.turn ⟨(), s⟩).after = true → (p.turn ⟨(), s⟩).after.state = f s)
    {c turns last} (path : p.Path c turns last) (hgo : p.goesOn last = true) :
    (∀ i ≤ turns.length, p.goesOn ⟨(), f^[i] c.state⟩ = true) ∧
      ∀ i < turns.length, (p.turn ⟨(), f^[i] c.state⟩).aborted = false := by
  induction path with
  | here =>
    constructor
    · intro i hi
      obtain rfl : i = 0 := by simpa using hi
      exact hgo
    · intro i hi
      simp at hi
  | @went c turns last go proceed rest ih =>
    obtain ⟨ihgo, ihproceed⟩ := ih hgo
    have hnext : (p.turn c).after.state = f c.state := hf c.state go proceed (ihgo 0 (Nat.zero_le _))
    rw [hnext] at ihgo ihproceed
    constructor
    · intro i hi
      cases i with
      | zero => exact go
      | succ i => exact ihgo i (by simpa using hi)
    · intro i hi
      cases i with
      | zero => exact proceed
      | succ i => exact ihproceed i (by simpa using hi)

/-! ## One iteration -/

theorem iterate_eq (p : CyclicProcess M S) (number : Nat) (c : Config M S) :
    let i := p.iterate number c.memory c.state
    let t := p.turn c
    i.memory = t.after.memory ∧ i.state = t.after.state ∧
      i.outcome = (if t.aborted then .safetyAborted else .completed) ∧
      i.invariantHeld = (p.holds c && (t.aborted || p.holds t.after)) ∧
      i.variantHeld = (t.aborted || decide (p.measure t.after < p.measure c)) := by
  cases h : (p.step c.memory c.state).step with
  | abort next =>
    simp [iterate, turn, Turn.after, Turn.aborted, holds, h, Step.state, Step.isAbort]
  | proceed next =>
    simp [iterate, turn, Turn.after, Turn.aborted, holds, measure, h, Step.state, Step.isAbort]

/-! ## The analyzer's loop -/

/-- The run so far with the turn at a place. -/
def record (p : CyclicProcess M S) (r : Progress M S) (c : Config M S) : Progress M S :=
  r.extend (p.iterate (r.iterations + 1) c.memory c.state)

/-- The run so far with more turns. -/
def replay (p : CyclicProcess M S) (r : Progress M S) (turns : List (Turn M S)) : Progress M S :=
  turns.foldl (fun r t => p.record r t.before) r

end CyclicProcess

/-- Where a run so far stands. -/
def Progress.config {M S : Type} (r : Progress M S) : Config M S := ⟨r.memory, r.state⟩

namespace CyclicProcess

variable {M S : Type} {p : CyclicProcess M S}

theorem config_record (r : Progress M S) (c : Config M S) :
    (p.record r c).config = (p.turn c).after := by
  obtain ⟨hm, hs, -⟩ := iterate_eq p (r.iterations + 1) c
  simp only [record, Progress.extend, Progress.config, hm, hs]

theorem outcome_record (r : Progress M S) (c : Config M S) :
    (p.record r c).outcome = if (p.turn c).aborted then .safetyAborted else .completed :=
  (iterate_eq p (r.iterations + 1) c).2.2.1

theorem runFor_zero (limit : Nat) (r : Progress M S) :
    p.runFor limit 0 r =
      if p.goesOn r.config then .error (.iterationLimit (p.name r.memory) limit) else .ok r := rfl

theorem runFor_succ (limit left : Nat) (r : Progress M S) :
    p.runFor limit (left + 1) r =
      if p.goesOn r.config then
        if (p.turn r.config).aborted then .ok (p.record r r.config)
        else p.runFor limit left (p.record r r.config)
      else .ok r := by
  by_cases go : p.guard r.memory r.state = true
  · rw [runFor, if_pos go, if_pos (show p.goesOn r.config = true from go)]
    by_cases abort : (p.turn r.config).aborted = true
    · have hout : (p.record r r.config).outcome = .safetyAborted := by
        rw [outcome_record, if_pos abort]
      rw [if_pos abort]
      simp only [record, Progress.config] at hout
      simp only [hout, record, Progress.config]
    · have hout : (p.record r r.config).outcome = .completed := by
        rw [outcome_record, if_neg abort]
      rw [if_neg abort]
      simp only [record, Progress.config] at hout
      simp only [hout, record, Progress.config]
  · rw [runFor, if_neg go, if_neg (show ¬ p.goesOn r.config = true from go)]

theorem runFor_of_run (limit : Nat) {left : Nat} {c turns last} (run : p.Run c turns last)
    (hlen : turns.length ≤ left) {r : Progress M S} (hr : r.config = c) :
    p.runFor limit left r = .ok (p.replay r turns) ∧ (p.replay r turns).config = last := by
  induction run generalizing left r with
  | ended stop =>
    subst hr
    cases left <;> simp [runFor_zero, runFor_succ, stop, replay]
  | aborted go abort =>
    subst hr
    obtain ⟨left, rfl⟩ : ∃ n, left = n + 1 := ⟨left - 1, by simp at hlen; omega⟩
    rw [runFor_succ, if_pos go, if_pos abort]
    exact ⟨rfl, config_record r r.config⟩
  | @went c turns last go proceed rest ih =>
    subst hr
    obtain ⟨left, rfl⟩ : ∃ n, left = n + 1 := ⟨left - 1, by simp at hlen; omega⟩
    rw [runFor_succ, if_pos go, if_neg (by simp [proceed])]
    exact ih (by simpa using hlen) (config_record r r.config)

theorem runFor_of_path (limit : Nat) {c turns last} (path : p.Path c turns last)
    (hgo : p.goesOn last = true) {r : Progress M S} (hr : r.config = c) :
    p.runFor limit turns.length r = .error (.iterationLimit (p.name last.memory) limit) := by
  induction path generalizing r with
  | here =>
    subst hr
    rw [List.length_nil, runFor_zero, if_pos hgo]
    rfl
  | went go proceed _ ih =>
    subst hr
    rw [List.length_cons, runFor_succ, if_pos go, if_neg (by simp [proceed])]
    exact ih hgo (config_record r r.config)

/-- **What the loop returns is a run of the process.** -/
theorem run_of_runFor_eq_ok {limit left : Nat} {r r' : Progress M S}
    (h : p.runFor limit left r = .ok r') :
    ∃ turns last, p.Run r.config turns last ∧ turns.length ≤ left ∧ r' = p.replay r turns ∧
      r'.config = last := by
  rcases run_or_path p left r.config with ⟨turns, last, run, hlen⟩ | ⟨turns, last, path, rfl, hgo⟩
  · obtain ⟨hrun, hlast⟩ := runFor_of_run limit run hlen (r := r) rfl
    rw [hrun] at h
    injection h with h
    subst h
    exact ⟨turns, last, run, hlen, rfl, hlast⟩
  · rw [runFor_of_path limit path hgo rfl] at h
    cases h

/-! ## The judgement -/

theorem limit_eq {n : Nat} (hb : p.iterationBound = some n) : p.limit = n := by
  rw [limit, hb]
  rfl

theorem config_start (p : CyclicProcess M S) : p.start.config = p.origin := rfl

/-- An accepted process is judged on its run, or given up at its limit. -/
theorem analyze_eq (p : CyclicProcess M S) (hc : p.checkParameters = .ok ()) :
    p.analyze = (p.runFor p.limit p.limit p.start).map p.judge := by
  simp only [analyze, hc, bind, Except.bind, pure, Except.pure]
  cases p.runFor p.limit p.limit p.start <;> rfl

theorem analyze_of_run (hc : p.checkParameters = .ok ()) {turns last}
    (run : p.Run p.origin turns last) (hlen : turns.length ≤ p.limit) :
    p.analyze = .ok (p.judge (p.replay p.start turns)) := by
  rw [analyze_eq p hc, (runFor_of_run p.limit run hlen (config_start p)).1]
  rfl

/-- An accepted process is judged, or its run can be followed to the limit and goes on. -/
theorem analyze_ok_or_path (hc : p.checkParameters = .ok ()) :
    (∃ a, p.analyze = .ok a) ∨ ∃ turns last, p.Path p.origin turns last ∧
      turns.length = p.limit ∧ p.goesOn last = true := by
  rcases run_or_path p p.limit p.origin with ⟨turns, last, run, hlen⟩ | hpath
  · exact .inl ⟨_, analyze_of_run hc run hlen⟩
  · exact .inr hpath

theorem analyze_of_path (hc : p.checkParameters = .ok ()) {turns last}
    (path : p.Path p.origin turns last) (hlen : turns.length = p.limit)
    (hgo : p.goesOn last = true) :
    p.analyze = .error (.iterationLimit (p.name last.memory) p.limit) := by
  have h := runFor_of_path p.limit path hgo (config_start p)
  rw [hlen] at h
  rw [analyze_eq p hc, h]
  rfl

theorem accepted_of_analyze_eq_ok {a : Analysis} (h : p.analyze = .ok a) :
    p.checkParameters = .ok () := by
  cases hc : p.checkParameters with
  | error fault => simp [analyze, hc, bind, Except.bind] at h
  | ok u => rfl

theorem exists_of_map_analyze {α : Type} {f : Analysis → α} {b : α}
    (h : p.analyze.toOption.map f = some b) : ∃ a, p.analyze = .ok a ∧ f a = b := by
  cases ha : p.analyze with
  | error fault => rw [ha] at h; cases h
  | ok a => rw [ha] at h; exact ⟨a, rfl, Option.some.inj h⟩

/-- **What the analyzer returns is a judgement on the process's run.** -/
theorem run_of_analyze_eq_ok {a : Analysis} (h : p.analyze = .ok a) :
    ∃ turns last, p.Run p.origin turns last ∧ turns.length ≤ p.limit ∧
      a = p.judge (p.replay p.start turns) ∧ (p.replay p.start turns).config = last := by
  rw [analyze_eq p (accepted_of_analyze_eq_ok h)] at h
  cases hrun : p.runFor p.limit p.limit p.start with
  | error fault => rw [hrun] at h; cases h
  | ok r =>
    rw [hrun] at h
    injection h with h
    obtain ⟨turns, last, run, hlen, rfl, hlast⟩ := run_of_runFor_eq_ok hrun
    exact ⟨turns, last, run, hlen, h.symm, hlast⟩

end CyclicProcess

end Barista
