/-
When an accepted loop finishes within its own bound.

Heating and cleaning count in doubles, one upwards and one downwards, and
both are followed as a climb (`CyclicProcess.Climb`): if every body moves the
variable, the bound is enough (`Climb.analyze_ok`). The test on the rate does
not see to that, because it is made at the largest magnitude alone. Where a
value below it swallows the rate (`Stalls`), the loop never passes that value
and is given up; and that value swallows it by a tie only.
-/
import Barista.Cycle.Cleaning
import Barista.Cycle.Heating
import Barista.Proofs.Binary64.Bounds
import Barista.Proofs.Binary64.Stall
import Barista.Proofs.Cycle.Bound
import Barista.Proofs.Cycle.Run

namespace Barista

open Binary64

/-! ## Loops that climb -/

/-- A loop that climbs by a rate, from place to place, below a goal: as long as it goes on, its
body makes `next` of the state, whose place is the rounded sum and another one. -/
structure CyclicProcess.Climb (p : CyclicProcess Unit Binary64) (next : Binary64 → Binary64)
    (place : Binary64 → Int) (rate goal : Int) (inside : Binary64 → Prop) : Prop where
  initial : inside p.initial
  grid : OnGrid (place p.initial)
  rate_pos : 0 < rate
  body : ∀ s, p.goesOn ⟨(), s⟩ = true → (p.turn ⟨(), s⟩).aborted = false →
    p.goesOn (p.turn ⟨(), s⟩).after = true → (p.turn ⟨(), s⟩).after.state = next s
  moves : ∀ s, inside s → p.goesOn ⟨(), s⟩ = true → (p.turn ⟨(), s⟩).aborted = false →
    p.goesOn ⟨(), next s⟩ = true →
    inside (next s) ∧ place (next s) = nearest (place s + rate) 1 ∧ place (next s) ≠ place s
  below : ∀ s, inside s → p.goesOn ⟨(), s⟩ = true → place s < goal
  covers : p.goesOn p.origin = true →
    6 * (goal - place p.initial) ≤
      7 * rate * (p.limit / 2 : Nat) + 3 * rate * (p.limit % 2 : Nat)

/-- **A loop that climbs is judged.** It cannot go on to its limit: it would have passed the goal. -/
theorem CyclicProcess.Climb.analyze_ok {p : CyclicProcess Unit Binary64} {next place rate goal inside}
    (climbs : p.Climb next place rate goal inside) (hc : p.checkParameters = .ok ()) :
    ∃ a, p.analyze = .ok a := by
  rcases analyze_ok_or_path hc with h | ⟨turns, last, path, hlen, hgo⟩
  · exact h
  exfalso
  obtain ⟨hgoes, hproceeds⟩ := path.goesOn_iterate climbs.body hgo
  rw [hlen] at hgoes hproceeds
  have hinside : ∀ i ≤ p.limit, inside (next^[i] p.initial) := by
    intro i
    induction i with
    | zero => exact fun _ => climbs.initial
    | succ i ih =>
      intro hi
      rw [Function.iterate_succ_apply']
      refine (climbs.moves _ (ih (by omega)) (hgoes i (by omega)) (hproceeds i hi) ?_).1
      rw [← Function.iterate_succ_apply' next i]
      exact hgoes (i + 1) hi
  have hsteps : ∀ i < p.limit,
      place (next^[i + 1] p.initial) = nearest (place (next^[i] p.initial) + rate) 1 ∧
        place (next^[i + 1] p.initial) ≠ place (next^[i] p.initial) := by
    intro i hi
    have hgo' := hgoes (i + 1) hi
    rw [Function.iterate_succ_apply'] at hgo' ⊢
    exact (climbs.moves _ (hinside i (by omega)) (hgoes i (by omega)) (hproceeds i hi) hgo').2
  have hclimbed := climb (z := fun i => place (next^[i] p.initial)) climbs.rate_pos climbs.grid hsteps
  have hbelow := climbs.below _ (hinside _ (Nat.le_refl _)) (hgoes _ (Nat.le_refl _))
  have hcovers := climbs.covers (hgoes 0 (Nat.zero_le _))
  simp only [Function.iterate_zero_apply] at hclimbed
  omega

/-! ## Heating -/

namespace WaterHeating

variable {h : WaterHeating} {n : Nat}

/-- A temperature that the loop would go on from swallows the rate. -/
def Stalls (h : WaterHeating) : Prop :=
  ∃ t, h.current ≤ t ∧ t < h.target ∧ t ≤ h.maxSafe ∧ (t + h.rate).sameNumber t = true

/-- The larger magnitude of start and target, where the test on the rate is made. -/
def magnitude (h : WaterHeating) : Binary64 := h.current.abs.greatest h.target.abs

theorem checkParameters_eq_ok :
    h.checkParameters = .ok () ↔ h.current.isFinite = true ∧ h.target.isFinite = true ∧
      h.maxSafe.isFinite = true ∧ (h.rate.isFinite = true ∧ 0 < h.rate) ∧
      (h.magnitude + h.rate).sameNumber h.magnitude = false := by
  simp only [checkParameters, Rate.seq_eq_ok, Rate.checkFinite_eq_ok, Rate.checkPositive_eq_ok,
    Rate.checkProgress_eq_ok, magnitude]

theorem goesOn_iff {t : Binary64} : h.process.goesOn ⟨(), t⟩ = true ↔ t < h.target :=
  decide_eq_true_iff

theorem turn_after (t : Binary64) : (h.process.turn ⟨(), t⟩).after = ⟨(), t + h.rate⟩ := by
  show Turn.after ⟨⟨(), t⟩, h.heat t⟩ = _
  simp only [heat]
  split <;> rfl

theorem turn_aborted (t : Binary64) :
    (h.process.turn ⟨(), t⟩).aborted = decide (h.maxSafe < t + h.rate) := by
  show Turn.aborted ⟨⟨(), t⟩, h.heat t⟩ = _
  simp only [heat]
  split
  · next hcut => rw [decide_eq_true hcut]; rfl
  · next hcut => rw [decide_eq_false hcut]; rfl

theorem measure_eq (t : Binary64) : h.process.measure ⟨(), t⟩ = h.target - t := rfl

/-- Where nothing swallows the rate, heating is a climb in units. -/
theorem climbs (hc : h.checkParameters = .ok ()) (hb : h.process.iterationBound = some n)
    (hs : ¬ h.Stalls) :
    h.process.Climb (· + h.rate) units h.rate.units h.target.units
      fun t => h.current ≤ t ∧ t.isFinite = true := by
  obtain ⟨fcurrent, ftarget, fsafe, ⟨frate, hpos⟩, -⟩ := checkParameters_eq_ok.1 hc
  have hrate := (pos_iff_units frate).1 hpos
  refine ⟨⟨Binary64.le_refl fcurrent, fcurrent⟩, onGrid_units _, hrate, ?_, ?_, ?_, ?_⟩
  · intro t _ _ _
    rw [turn_after]
  · rintro t ⟨hlow, ft⟩ hgo hproceed hnext
    rw [goesOn_iff] at hgo hnext
    rw [turn_aborted, decide_eq_false_iff_not] at hproceed
    have hup : t ≤ t + h.rate := le_add ft frate (Int.le_of_lt hrate)
    have fnext : (t + h.rate).isFinite = true :=
      isFinite_of_le_of_le ft ftarget hup (Binary64.le_of_lt hnext)
    refine ⟨⟨Binary64.le_trans hlow hup, fnext⟩, units_add fnext, ?_⟩
    -- A step to the same place would be a stall: the temperature is no hotter than the safe one.
    intro heq
    apply hs
    rw [lt_iff_units fsafe fnext, heq, Int.not_lt] at hproceed
    exact ⟨t, hlow, hgo, (le_iff_units ft fsafe).2 hproceed,
      (sameNumber_add_iff ft frate).2 (units_add fnext ▸ heq)⟩
  · rintro t ⟨-, ft⟩ hgo
    exact (lt_iff_units ft ftarget).1 (goesOn_iff.1 hgo)
  · intro hgo
    have hlt := (lt_iff_units fcurrent ftarget).1 (goesOn_iff.1 hgo)
    have hplace := position?_sub ftarget fcurrent
    have hz : 0 ≤ h.target.units - h.current.units := by omega
    have fdist := Rate.isFinite_of_bound hplace (held_nonneg (nearest_nonneg hz 1)) frate hrate hb
    rw [CyclicProcess.limit_eq hb]
    exact Rate.bound_covers hz fdist (units_sub fdist) frate hrate hb

/-- A stall keeps the loop below it, up to its limit. -/
theorem analyze_of_stalls (hc : h.checkParameters = .ok ()) (hs : h.Stalls) :
    h.process.analyze = .error (.iterationLimit processName h.process.limit) := by
  obtain ⟨fcurrent, ftarget, fsafe, ⟨frate, hpos⟩, -⟩ := checkParameters_eq_ok.1 hc
  obtain ⟨t, hlow, hgo, hsafe, hsame⟩ := hs
  have ft : t.isFinite = true := isFinite_of_le_of_le fcurrent fsafe hlow hsafe
  rw [sameNumber_add_iff ft frate] at hsame
  have hrate := (pos_iff_units frate).1 hpos
  have hup := nearest_mono_units (show h.current.units ≤ h.current.units + h.rate.units by omega)
  rw [nearest_units] at hup
  have hkept : ∀ config, Between h.current t config.state → h.process.goesOn config = true ∧
      (h.process.turn config).aborted = false ∧
        Between h.current t (h.process.turn config).after.state := by
    intro config hin
    have hnext := hin.add_of_le frate hup (Int.le_of_eq hsame)
    refine ⟨goesOn_iff.2 (Binary64.lt_of_le_of_lt hin.high hgo), ?_, ?_⟩
    · rw [turn_aborted, decide_eq_false_iff_not]
      exact Binary64.not_lt_of_le (Binary64.le_trans hnext.high hsafe)
    · rw [turn_after]
      exact hnext
  have hstart : Between h.current t h.process.origin.state :=
    ⟨Binary64.le_refl fcurrent, hlow, fcurrent, ft⟩
  obtain ⟨turns, last, path, hlen, hlast⟩ :=
    CyclicProcess.exists_path (Between h.current t ·.state) hkept h.process.limit hstart
  exact CyclicProcess.analyze_of_path (p := h.process) hc path hlen hlast

theorem tie_of_stalls (hc : h.checkParameters = .ok ()) (hs : h.Stalls) :
    2 * h.rate.units = gap h.magnitude.units.natAbs := by
  obtain ⟨fcurrent, ftarget, fsafe, ⟨frate, hpos⟩, hmoves⟩ := checkParameters_eq_ok.1 hc
  obtain ⟨t, hlow, hgo, hsafe, hsame⟩ := hs
  have ft : t.isFinite = true := isFinite_of_le_of_le fcurrent fsafe hlow hsafe
  obtain ⟨fmag, hcurrent, htarget⟩ := greatest_spec ((isFinite_abs h.current).trans fcurrent)
    ((isFinite_abs h.target).trans ftarget)
  rw [units_abs] at hcurrent htarget
  rw [← magnitude] at fmag hcurrent htarget
  rw [← Bool.not_eq_true, sameNumber_add_iff fmag frate] at hmoves
  rw [sameNumber_add_iff ft frate] at hsame
  rw [pos_iff_units frate] at hpos
  rw [le_iff_units fcurrent ft] at hlow
  rw [lt_iff_units ft ftarget] at hgo
  exact tie_of_swallowed hpos (onGrid_units _) (by omega) (by omega) hmoves hsame

end WaterHeating

/-! ## Cleaning -/

namespace TankCleaning

variable {c : TankCleaning} {n : Nat}

/-- A level that the loop would go on from swallows the rate. -/
def Stalls (c : TankCleaning) : Prop :=
  ∃ w, 0 < w ∧ w ≤ c.waste ∧ (w - c.rate).sameNumber w = true

theorem checkParameters_eq_ok :
    c.checkParameters = .ok () ↔ c.waste.isFinite = true ∧ (c.rate.isFinite = true ∧ 0 < c.rate) ∧
      (c.waste.abs + c.rate).sameNumber c.waste.abs = false := by
  simp only [checkParameters, Rate.seq_eq_ok, Rate.checkFinite_eq_ok, Rate.checkPositive_eq_ok,
    Rate.checkProgress_eq_ok]

theorem goesOn_iff {w : Binary64} : c.process.goesOn ⟨(), w⟩ = true ↔ 0 < w := by
  simp only [CyclicProcess.goesOn, process, decide_eq_true_eq]

theorem turn_aborted (w : Binary64) : (c.process.turn ⟨(), w⟩).aborted = false := by
  show Turn.aborted ⟨⟨(), w⟩, c.drain w⟩ = _
  simp only [drain]
  split <;> rfl

theorem turn_after (w : Binary64) :
    (c.process.turn ⟨(), w⟩).after = ⟨(), if w - c.rate < 0 then 0 else w - c.rate⟩ := by
  show Turn.after ⟨⟨(), w⟩, c.drain w⟩ = _
  simp only [drain]
  split <;> rfl

theorem climbs (hc : c.checkParameters = .ok ()) (hb : c.process.iterationBound = some n)
    (hs : ¬ c.Stalls) :
    c.process.Climb (· - c.rate) (fun w => -w.units) c.rate.units 0
      fun w => w ≤ c.waste ∧ w.isFinite = true := by
  obtain ⟨fwaste, ⟨frate, hpos⟩, -⟩ := checkParameters_eq_ok.1 hc
  have hrate := (pos_iff_units frate).1 hpos
  refine ⟨⟨Binary64.le_refl fwaste, fwaste⟩, (onGrid_units _).neg, hrate, ?_, ?_, ?_, ?_⟩
  · intro w _ _ hnext
    rw [turn_after, goesOn_iff] at hnext
    rw [turn_after]
    split
    · next hneg =>
      -- A level put right to zero is the loop's last one.
      rw [if_pos hneg, lt_iff_units isFinite_zero isFinite_zero] at hnext
      omega
    · rfl
  · rintro w ⟨hhigh, fw⟩ hgo - hnext
    rw [goesOn_iff] at hgo hnext
    have hdown : w - c.rate ≤ w := sub_le fw frate (Int.le_of_lt hrate)
    have fnext : (w - c.rate).isFinite = true :=
      isFinite_of_le_of_le isFinite_zero fw (Binary64.le_of_lt hnext) hdown
    have hunits := units_sub fnext
    refine ⟨⟨Binary64.le_trans hdown hhigh, fnext⟩, ?_, ?_⟩
    · rw [hunits, ← nearest_neg, Int.neg_sub, Int.sub_eq_add_neg, Int.add_comm]
    · intro heq
      apply hs
      exact ⟨w, hgo, hhigh, (sameNumber_sub_iff fw frate).2 (hunits ▸ Int.neg_inj.1 heq)⟩
  · rintro w ⟨-, fw⟩ hgo
    have := (pos_iff_units fw).1 (goesOn_iff.1 hgo)
    omega
  · intro hgo
    have hlt := (pos_iff_units fwaste).1 (goesOn_iff.1 hgo)
    have hcovers := Rate.bound_covers (Int.le_of_lt hlt) fwaste (nearest_units _).symm frate hrate hb
    rw [CyclicProcess.limit_eq hb, Int.sub_neg, Int.zero_add]
    exact hcovers

theorem analyze_of_stalls (hc : c.checkParameters = .ok ()) (hs : c.Stalls) :
    c.process.analyze = .error (.iterationLimit processName c.process.limit) := by
  obtain ⟨fwaste, ⟨frate, hpos⟩, -⟩ := checkParameters_eq_ok.1 hc
  obtain ⟨w, hgo, hhigh, hsame⟩ := hs
  have fw : w.isFinite = true :=
    isFinite_of_le_of_le isFinite_zero fwaste (Binary64.le_of_lt hgo) hhigh
  rw [sameNumber_sub_iff fw frate, Int.sub_eq_add_neg, ← units_neg] at hsame
  have hrate := (pos_iff_units frate).1 hpos
  have hdown : nearest (c.waste.units + (-c.rate).units) 1 ≤ nearest c.waste.units 1 := by
    apply nearest_mono_units
    rw [units_neg]
    omega
  rw [nearest_units] at hdown
  have hkept : ∀ config, Between w c.waste config.state → c.process.goesOn config = true ∧
      (c.process.turn config).aborted = false ∧
        Between w c.waste (c.process.turn config).after.state := by
    intro config hin
    have hnext : Between w c.waste (config.state - c.rate) :=
      hin.add_of_le ((isFinite_neg _).trans frate) (Int.le_of_eq hsame.symm) hdown
    have hpos' := Binary64.lt_of_lt_of_le hgo hnext.low
    refine ⟨goesOn_iff.2 (Binary64.lt_of_lt_of_le hgo hin.low), turn_aborted _, ?_⟩
    rw [turn_after, if_neg (Binary64.not_lt_of_le (Binary64.le_of_lt hpos'))]
    exact hnext
  have hstart : Between w c.waste c.process.origin.state :=
    ⟨hhigh, Binary64.le_refl fwaste, fw, fwaste⟩
  obtain ⟨turns, last, path, hlen, hlast⟩ :=
    CyclicProcess.exists_path (Between w c.waste ·.state) hkept c.process.limit hstart
  exact CyclicProcess.analyze_of_path (p := c.process) hc path hlen hlast

theorem tie_of_stalls (hc : c.checkParameters = .ok ()) (hs : c.Stalls) :
    2 * c.rate.units = gap c.waste.abs.units.natAbs := by
  obtain ⟨fwaste, ⟨frate, hpos⟩, hmoves⟩ := checkParameters_eq_ok.1 hc
  obtain ⟨w, hgo, hhigh, hsame⟩ := hs
  have fw : w.isFinite = true :=
    isFinite_of_le_of_le isFinite_zero fwaste (Binary64.le_of_lt hgo) hhigh
  rw [← Bool.not_eq_true, sameNumber_add_iff ((isFinite_abs _).trans fwaste) frate] at hmoves
  rw [sameNumber_sub_iff fw frate] at hsame
  rw [pos_iff_units frate] at hpos
  rw [pos_iff_units fw] at hgo
  rw [le_iff_units fw fwaste] at hhigh
  have hmag := units_abs c.waste
  refine tie_of_swallowed (z := -w.units) hpos (onGrid_units _) (by omega) (by omega) hmoves ?_
  rw [show -w.units + c.rate.units = -(w.units - c.rate.units) by omega, nearest_neg, hsame]

end TankCleaning

/-! ## Both loops -/

/-- A loop that counts in doubles. -/
inductive CountingLoop where
  | heating (loop : WaterHeating)
  | cleaning (loop : TankCleaning)

namespace CountingLoop

def process : CountingLoop → CyclicProcess Unit Binary64
  | heating h => h.process
  | cleaning c => c.process

def rate : CountingLoop → Binary64
  | heating h => h.rate
  | cleaning c => c.rate

/-- Where the test on the rate is made. -/
def magnitude : CountingLoop → Binary64
  | heating h => h.magnitude
  | cleaning c => c.waste.abs

/-- A value that the loop would go on from swallows the rate. -/
def Stalls : CountingLoop → Prop
  | heating h => h.Stalls
  | cleaning c => c.Stalls

variable {loop : CountingLoop} {n : Nat}

theorem analyze_of_stalls (hc : loop.process.checkParameters = .ok ())
    (hb : loop.process.iterationBound = some n) (hs : loop.Stalls) :
    loop.process.analyze = .error (.iterationLimit (loop.process.name ()) n) := by
  rw [← CyclicProcess.limit_eq hb]
  cases loop with
  | heating h => exact h.analyze_of_stalls hc hs
  | cleaning c => exact c.analyze_of_stalls hc hs

theorem analyze_of_not_stalls (hc : loop.process.checkParameters = .ok ())
    (hb : loop.process.iterationBound = some n) (hs : ¬ loop.Stalls) :
    ∃ a, loop.process.analyze = .ok a := by
  cases loop with
  | heating h => exact (h.climbs hc hb hs).analyze_ok hc
  | cleaning c => exact (c.climbs hc hb hs).analyze_ok hc

theorem tie_of_stalls (hc : loop.process.checkParameters = .ok ()) (hs : loop.Stalls) :
    2 * loop.rate.units = gap loop.magnitude.units.natAbs := by
  cases loop with
  | heating h => exact h.tie_of_stalls hc hs
  | cleaning c => exact c.tie_of_stalls hc hs

/-- **When an accepted loop with a bound finishes.** Exactly if no value that it would go on from
swallows the rate. If one does, the loop is given up at its own bound, and its rate is half the gap
at the largest magnitude, where the tie went the other way. -/
theorem analyze_ok_iff_not_stalls (hc : loop.process.checkParameters = .ok ())
    (hb : loop.process.iterationBound = some n) :
    ((∃ a, loop.process.analyze = .ok a) ↔ ¬ loop.Stalls) ∧
      (loop.Stalls →
        loop.process.analyze = .error (.iterationLimit (loop.process.name ()) n) ∧
          2 * loop.rate.units = gap loop.magnitude.units.natAbs) := by
  refine ⟨⟨?_, analyze_of_not_stalls hc hb⟩, ?_⟩
  · rintro ⟨a, ha⟩ hs
    rw [analyze_of_stalls hc hb hs] at ha
    cases ha
  · intro hs
    exact ⟨analyze_of_stalls hc hb hs, tie_of_stalls hc hs⟩

/-- Water from 20 to 90 degrees by 5 a time, and three quarters of a tank by a tenth: neither rate
is half a gap, so both loops finish. -/
theorem analyze_ok_of_no_tie :
    (∃ a, (heating ⟨20, 90, 5, 95⟩).process.analyze = .ok a) ∧
      ∃ a, (cleaning ⟨75, 10⟩).process.analyze = .ok a := by
  constructor
  · obtain ⟨hiff, hstalls⟩ := analyze_ok_iff_not_stalls (n := 29)
      (show (heating ⟨20, 90, 5, 95⟩).process.checkParameters = .ok () by decide +kernel)
      (by decide +kernel)
    exact hiff.2 fun hs => absurd (hstalls hs).2 (by decide +kernel)
  · obtain ⟨hiff, hstalls⟩ := analyze_ok_iff_not_stalls (n := 17)
      (show (cleaning ⟨75, 10⟩).process.checkParameters = .ok () by decide +kernel)
      (by decide +kernel)
    exact hiff.2 fun hs => absurd (hstalls hs).2 (by decide +kernel)

/-- Heating from `2^52` to the next number by half the gap between them: the rate moves the target,
whose significand is odd, and is swallowed by the start, whose significand is even. -/
def tiedHeating : CountingLoop := heating ⟨4503599627370496, 4503599627370497, 0.5, 1e300⟩

theorem not_every_accepted_loop_finishes :
    ¬ ∀ (loop : CountingLoop) (n : Nat), loop.process.checkParameters = .ok () →
      loop.process.iterationBound = some n → ∃ a, loop.process.analyze = .ok a := by
  intro finishes
  have hc : tiedHeating.process.checkParameters = .ok () := by decide +kernel
  have hb : tiedHeating.process.iterationBound = some 5 := by decide +kernel
  have hs : tiedHeating.Stalls :=
    ⟨4503599627370496, by decide +kernel, by decide +kernel, by decide +kernel, by decide +kernel⟩
  obtain ⟨a, ha⟩ := finishes tiedHeating 5 hc hb
  rw [analyze_of_stalls hc hb hs] at ha
  cases ha

end CountingLoop

end Barista
