/-
What every session keeps.

A session may do anything to a machine: ask for operations, put values into
it, move its waste and its wear and its timer, in any order. Health is worked
out with the wear, and the start of a brew is forgotten with its end, so
neither can drift from what it goes with: `Machine.Consistent` holds of every
machine to begin with and is kept by every request and every change. An
amount of wear may be infinite or no number at all, but a negative one would
leave the range, and `Change.Admissible` excludes it.
-/
import Barista.CommandLine.Run
import Barista.Proofs.Requests.Preconditions

namespace Barista

open Binary64

/-- The start of a brew is known exactly while the timer runs. -/
def BrewTimer.Anchored (t : BrewTimer) : Prop := t.running = true ↔ t.startedAt.isSome = true

/-- Sound, with a timer that knows its start exactly while it runs. -/
structure Machine.Consistent (m : Machine) : Prop extends m.Sound where
  anchored : m.timer.Anchored

namespace BrewTimer

theorem anchored_complete (t : BrewTimer) : t.complete.Anchored := by simp [Anchored, complete]

theorem Anchored.update {t : BrewTimer} (h : t.Anchored) (now : Nat) : (t.update now).Anchored := by
  unfold BrewTimer.update
  split
  · cases hstart : t.startedAt with
    | none => exact h
    | some started =>
      dsimp only
      split
      · exact anchored_complete _
      · rw [Anchored] at h ⊢
        rw [h, hstart]
  · exact h

end BrewTimer

/-! ## The first machine -/

theorem Machine.consistent_fresh : fresh.Consistent :=
  ⟨sound_fresh, by simp [BrewTimer.Anchored, fresh, BrewTimer.idle]⟩

/-! ## Changes -/

/-- No negative amount of wear is added or taken away; it may be infinite, or no number at all. -/
def Change.Admissible : Change → Prop
  | .increaseWear amount | .reduceWear amount => amount.isNaN = true ∨ 0 ≤ amount
  | _ => True

/-- Any request may be made. -/
def Action.Admissible : Action → Prop
  | .request _ => True
  | .change c => c.Admissible

instance : DecidablePred Change.Admissible
  | .increaseWear amount | .reduceWear amount =>
    inferInstanceAs (Decidable (amount.isNaN = true ∨ 0 ≤ amount))
  | .set _ | .setWaste _ | .addWaste _ | .startBrewing .. | .updateBrewing _ | .completeBrewing =>
    .isTrue trivial

instance : DecidablePred Action.Admissible
  | .request _ => .isTrue trivial
  | .change c => inferInstanceAs (Decidable c.Admissible)

section

variable {m : Machine}

theorem Machine.Consistent.of_eq {m' : Machine} (h : m.Consistent) (hwaste : m'.waste = m.waste)
    (hwear : m'.wear = m.wear) (hhealth : m'.health = m.health) (htimer : m'.timer = m.timer) :
    m'.Consistent := by
  refine ⟨⟨?_, ?_, ?_, ?_⟩, ?_⟩
  · rw [hwaste]
    exact h.waste_le
  · rw [hwear]
    exact h.wear_nonneg
  · rw [hwear]
    exact h.wear_le
  · rw [hhealth, hwear]
    exact h.health_eq
  · rw [htimer]
    exact h.anchored

theorem Setting.consistent_apply (h : m.Consistent) (s : Setting) : (s.apply m).Consistent := by
  cases s <;> exact h.of_eq rfl rfl rfl rfl

theorem Machine.Consistent.setWear (h : m.Consistent) {wear : Binary64} (b : Between 0 100 wear) :
    (m.setWear wear).Consistent :=
  ⟨⟨h.waste_le, b.low, b.high, healthAt_eq b⟩, h.anchored⟩

theorem Machine.Consistent.setWaste (h : m.Consistent) (level : Count) :
    (m.setWaste level).Consistent :=
  ⟨⟨UInt32.le_iff_toNat_le.1 (waste_setWaste_le level m), h.wear_nonneg, h.wear_le, h.health_eq⟩,
    h.anchored⟩

theorem Machine.Consistent.withTimer (h : m.Consistent) {timer : BrewTimer} (ht : timer.Anchored) :
    Machine.Consistent { m with timer } :=
  ⟨⟨h.waste_le, h.wear_nonneg, h.wear_le, h.health_eq⟩, ht⟩

/-- **Every change keeps a machine consistent.** -/
theorem Change.consistent_apply (h : m.Consistent) {c : Change} (hc : c.Admissible) :
    (c.apply m).Consistent := by
  cases c with
  | set settings =>
    clear hc
    rw [Change.apply]
    induction settings generalizing m with
    | nil => exact h
    | cons s rest ih => exact ih (s.consistent_apply h)
  | setWaste level => exact h.setWaste level
  | addWaste amount => exact h.setWaste _
  | increaseWear amount => exact h.setWear (Machine.increased_between h.wear_between hc)
  | reduceWear amount => exact h.setWear (Machine.decreased_between h.wear_between hc)
  | startBrewing total now => exact h.withTimer (by simp [BrewTimer.Anchored, BrewTimer.started])
  | updateBrewing now => exact h.withTimer (h.anchored.update now)
  | completeBrewing => exact h.withTimer (BrewTimer.anchored_complete _)

/-- **So does every request that is carried out.** -/
theorem Request.CarriedOut.consistent {after : Machine} {r : Request} {report : Report}
    (h : m.Consistent) (done : r.CarriedOut m after report) : after.Consistent := by
  refine ⟨done.sound h.toSound, ?_⟩
  rcases done.timer with hsame | ⟨time, hended⟩
  · rw [hsame]
    exact h.anchored
  · rw [hended]
    exact BrewTimer.anchored_complete (.started time 0)

end

/-! ## The machine that options describe -/

namespace CommandLine.MachineOptions

variable {o : MachineOptions} {m : Machine}

theorem consistent_build (h : o.build = .ok m) : m.Consistent := by
  obtain ⟨hwear, rfl⟩ := build_eq_ok h
  have hstocked : Machine.Consistent
      { Machine.fresh with stock := o.stock, temperature := o.temperature } :=
    Machine.consistent_fresh.of_eq rfl rfl rfl rfl
  have hfilled := hstocked.setWaste o.waste
  exact hfilled.setWear (Machine.increased_between hfilled.wear_between (.inr hwear))

end CommandLine.MachineOptions

/-! ## Sessions -/

namespace Machine

open CommandLine (MachineOptions)

/-- **What every session keeps.** Whatever is done to a delivered machine or to one that options
describe, in any order and as long as no count overflows: waste and wear are percentages, health is
what the whole part of the wear leaves of a hundred, none is left exactly if the machine is broken,
and a start instant is recorded exactly while it is brewing. -/
theorem consistent_of_session {first last : Machine} {actions : List Action}
    (hfirst : first = fresh ∨ ∃ o : MachineOptions, o.build = .ok first)
    (hadmissible : ∀ a ∈ actions, a.Admissible)
    (h : first.after actions = some last) :
    last.waste.toNat ≤ 100 ∧ 0 ≤ last.wear ∧ last.wear ≤ 100 ∧ last.wear.isNaN = false ∧
      (last.health.toNat : ℤ) = 100 - ⌊last.wear.value⌋ ∧
      (last.health = 0 ↔ last.isBroken = true) ∧
      (last.isBrewing = true ↔ last.timer.startedAt.isSome = true) := by
  have hstart : first.Consistent := by
    rcases hfirst with rfl | ⟨o, hbuild⟩
    · exact consistent_fresh
    · exact o.consistent_build hbuild
  have hlast : last.Consistent :=
    session_induction (fun _ _ _ _ => Request.CarriedOut.consistent)
      (fun _ c hc hm => Change.consistent_apply hm (hadmissible (.change c) hc)) h hstart
  exact ⟨hlast.waste_le, hlast.wear_nonneg, hlast.wear_le, isNaN_of_isFinite hlast.wear_between.finite,
    hlast.health_eq, hlast.toSound.health_eq_zero_iff, hlast.anchored⟩

/-- An empty machine below freezing, full of waste. -/
def neglected : Machine := ⟨⟨0, 0, 0, 0, 0⟩, -3, 0, 0, 0, 100, 40, 60, .idle⟩

/-- A brew without end that a service has to wait for, no number for its time at first, and wear
beyond all bounds. -/
def roughHandling : List Action :=
  [ .change (.addWaste 4294967295),
    .change (.set [.level .cups 4294967295, .temperature .nan]),
    .change (.startBrewing .nan 7),
    .change (.updateBrewing 3),
    .change (.startBrewing (.infinity false) 7),
    .request (.maintain ⟨.cleaning, true, true⟩),
    .change (.updateBrewing 1000000007),
    .change (.increaseWear (.infinity false)),
    .change .completeBrewing,
    .request (.maintain ⟨.diagnostic, false, false⟩),
    .change (.increaseWear .nan),
    .change (.reduceWear 0.5),
    .change (.startBrewing 15 0) ]

theorem consistent_of_session_roughHandling :
    ∃ last, neglected.after roughHandling = some last ∧ last.wear = 99.5 ∧ last.health ≠ 0 ∧
      (last.health.toNat : ℤ) = 100 - ⌊last.wear.value⌋ ∧
      last.timer.startedAt.isSome = true := by
  have hoptions : (⟨neglected.stock, -3, 100, 40, true⟩ : MachineOptions).build = .ok neglected := by
    decide +kernel
  have hend : (neglected.after roughHandling).any (fun last =>
      last.wear = 99.5 && !last.isBroken && last.isBrewing) = true := by decide +kernel
  obtain ⟨last, hlast, hstate⟩ := (Option.any_eq_true _ _).1 hend
  simp only [Bool.and_eq_true, Bool.not_eq_true', decide_eq_true_eq] at hstate
  obtain ⟨⟨hwear, hbroken⟩, hbrewing⟩ := hstate
  obtain ⟨-, -, -, -, hhealth, hzero, hstart⟩ :=
    consistent_of_session (.inr ⟨_, hoptions⟩) (by decide +kernel) hlast
  refine ⟨last, hlast, hwear, fun hnone => ?_, hhealth, hstart.1 hbrewing⟩
  rw [hzero.1 hnone] at hbroken
  cases hbroken

end Machine

end Barista
