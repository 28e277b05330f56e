/-
A brew in progress locks the machine.

From the start of a brew on, the clock may be read in any order, even from
before the start, and requests may come in between. As long as no reading is
over the whole time, nothing but the elapsed time moves, and every request is
refused; the first reading over it ends the brew, and an ended timer stands
still until somebody starts it again (`Machine.busy_until_over`). The machine
may be any, and so may the time, as long as it is finite.
-/
import Barista.Proofs.Requests.Preconditions

namespace Barista

open Binary64

/-! ## The lock -/

namespace Request

theorem brewing_mem_preconditions (m : Machine) (r : Request) :
    ("machine not brewing", !m.isBrewing) ∈ (r.preconditions m).entries := by
  have hoperational : ("machine not brewing", !m.isBrewing) ∈ m.operational := by
    simp [Machine.operational]
  cases r with
  | brew policy order start =>
    rw [preconditions, Order.entries_eq]
    exact List.mem_append_left _ (List.mem_append_left _ hoperational)
  | refill wanted =>
    rw [preconditions, Refill.preconditions]
    cases wanted.amount <;>
      rw [Conditions.entries_ofList (by simp [Machine.operational])] <;>
      exact List.mem_append_left _ hoperational
  | maintain wanted =>
    rw [preconditions, Maintenance.preconditions, Conditions.entries_ofList (by simp)]
    exact List.mem_cons_self

theorem refused_of_brewing {m : Machine} (hbrewing : m.isBrewing = true) (r : Request) :
    "machine not brewing" ∈ (r.preconditions m).failed ∧
      r.perform m = .refused (.preconditionsFailed r.operation (r.preconditions m).failed) m := by
  have hentry := brewing_mem_preconditions m r
  rw [hbrewing] at hentry
  have hfailed := Conditions.mem_failed hentry
  exact ⟨hfailed, perform_eq_refused (Conditions.not_allMet_of_mem_failed hfailed)⟩

end Request

/-! ## During a brew -/

/-- What comes up in the course of a brew: the clock is read, or something is asked for. -/
inductive Moment where
  | tick (now : Nat)
  | request (wanted : Request)

namespace Moment

def action : Moment → Action
  | .tick now => .change (.updateBrewing now)
  | .request wanted => .request wanted

def instant? : Moment → Option Nat
  | .tick now => some now
  | .request _ => none

/-- The last reading of the clock. -/
def lastTick? (moments : List Moment) : Option Nat := (moments.filterMap instant?).getLast?

theorem lastTick?_tick (now : Nat) (rest : List Moment) :
    lastTick? (.tick now :: rest) = some ((lastTick? rest).getD now) := by
  simp [lastTick?, instant?, List.getLast?_cons]

theorem lastTick?_request (wanted : Request) (rest : List Moment) :
    lastTick? (.request wanted :: rest) = lastTick? rest := by
  simp [lastTick?, instant?]

theorem tick_mem_of_lastTick? {moments : List Moment} {now : Nat}
    (h : lastTick? moments = some now) : .tick now ∈ moments := by
  obtain ⟨moment, hmem, hinstant⟩ := List.mem_filterMap.1 (List.mem_of_getLast? h)
  cases moment with
  | tick now' => cases hinstant; exact hmem
  | request wanted => cases hinstant

end Moment

namespace Machine

open BrewTimer (seconds)

variable {m : Machine} {total elapsed : Binary64} {start : Nat}

/-- The machine so far into a brew. -/
def inBrew (m : Machine) (total : Binary64) (start : Nat) (elapsed : Binary64) : Machine :=
  { m with timer := ⟨true, elapsed, total, some start⟩ }

theorem updateBrewing_inBrew {now : Nat} (h : seconds (now - start) < total) :
    (m.inBrew total start elapsed).updateBrewing now =
      m.inBrew total start (seconds (now - start)) := by
  rw [updateBrewing, inBrew, BrewTimer.update_short h, inBrew]

/-- Moments that all come too early for the end move the elapsed time and nothing else. -/
theorem after_moments (m : Machine) (elapsed : Binary64) {moments : List Moment}
    (hshort : ∀ now, .tick now ∈ moments → seconds (now - start) < total) :
    (m.inBrew total start elapsed).after (moments.map Moment.action) =
      some (m.inBrew total start
        (((Moment.lastTick? moments).map fun now => seconds (now - start)).getD elapsed)) := by
  induction moments generalizing elapsed with
  | nil => rfl
  | cons moment rest ih =>
    have hrest : ∀ now, .tick now ∈ rest → seconds (now - start) < total :=
      fun now h => hshort now (List.mem_cons_of_mem _ h)
    rw [List.map_cons]
    cases moment with
    | tick now =>
      rw [Moment.action, after_change, Change.apply,
        updateBrewing_inBrew (hshort now List.mem_cons_self), ih _ hrest, Moment.lastTick?_tick,
        Option.map_some, Option.getD_some, Option.getD_map fun now => seconds (now - start)]
    | request wanted =>
      obtain ⟨-, hrefused⟩ := Request.refused_of_brewing (m := m.inBrew total start elapsed) rfl wanted
      rw [Moment.action, after_request_of_refused hrefused rfl, ih _ hrest, Moment.lastTick?_request]

/-! ## After a brew -/

/-- Only a start sets the timer going: a brew that is carried out has ended it again. -/
theorem not_brewing_of_session {last : Machine} {actions : List Action}
    (hstart : ∀ total now, .change (.startBrewing total now) ∉ actions)
    (h : m.after actions = some last) (hidle : m.isBrewing = false) : last.isBrewing = false := by
  refine session_induction (P := fun m => m.isBrewing = false) ?_ ?_ h hidle
  · intro m after r report hidle done
    exact done.not_brewing hidle
  · intro m c hc hidle
    cases c with
    | set settings =>
      rw [isBrewing, Change.apply, timer_foldl_apply]
      exact hidle
    | startBrewing total now => exact absurd hc (hstart total now)
    | updateBrewing now =>
      rw [Change.apply, isBrewing, updateBrewing, BrewTimer.update_of_not_running hidle]
      exact hidle
    | setWaste level => exact hidle
    | addWaste amount => exact hidle
    | increaseWear amount => exact hidle
    | reduceWear amount => exact hidle
    | completeBrewing => rfl

/-- **A brew in progress locks the machine.** From the start of a brew of a finite time on, as long
as no reading of the clock is over that time, the machine is as it was but for the timer, which
shows what has passed by the last reading, less than the whole, and it refuses every request for
this reason. A reading over the time ends the brew, and from then on no reading changes anything,
whatever else is done, until somebody starts the timer again. -/
theorem busy_until_over (m : Machine) (hfinite : total.isFinite = true) (start : Nat)
    {moments : List Moment}
    (hshort : ∀ now, .tick now ∈ moments → ¬ total ≤ seconds (now - start)) :
    ∃ busy, (m.startBrewing total start).after (moments.map Moment.action) = some busy ∧
      busy.isBrewing = true ∧
      (Moment.lastTick? moments = none → busy.timer.elapsed = 0) ∧
      (∀ now, Moment.lastTick? moments = some now →
        busy.timer.elapsed = seconds (now - start) ∧ busy.timer.elapsed < total) ∧
      busy = { m with timer := ⟨true, busy.timer.elapsed, total, some start⟩ } ∧
      (∀ r : Request, ∃ failed,
        r.perform busy = .refused (.preconditionsFailed r.operation failed) busy ∧
          "machine not brewing" ∈ failed) ∧
      ∀ now, total ≤ seconds (now - start) →
        busy.updateBrewing now = { m with timer := ⟨false, total, total, none⟩ } ∧
        ∀ actions last, (busy.updateBrewing now).after actions = some last →
          (∀ total now, .change (.startBrewing total now) ∉ actions) →
          ∀ now, last.updateBrewing now = last := by
  have hless : ∀ now, .tick now ∈ moments → seconds (now - start) < total := fun now hnow =>
    (Binary64.lt_or_le (BrewTimer.isNaN_seconds _) (isNaN_of_isFinite hfinite)).resolve_right
      (hshort now hnow)
  have hrun := after_moments m 0 hless
  generalize hpassed : ((Moment.lastTick? moments).map fun now => seconds (now - start)).getD 0 =
    passed at hrun
  refine ⟨m.inBrew total start passed, hrun, rfl, ?_, ?_, rfl, ?_, ?_⟩
  · intro hnone
    rw [hnone, Option.map_none, Option.getD_none] at hpassed
    exact hpassed.symm
  · intro now hsome
    rw [hsome, Option.map_some, Option.getD_some] at hpassed
    refine ⟨hpassed.symm, ?_⟩
    show passed < total
    rw [← hpassed]
    exact hless now (Moment.tick_mem_of_lastTick? hsome)
  · intro r
    obtain ⟨hfailed, hrefused⟩ :=
      Request.refused_of_brewing (m := m.inBrew total start passed) rfl r
    exact ⟨_, hrefused, hfailed⟩
  · intro now hover
    have hended : (m.inBrew total start passed).updateBrewing now =
        { m with timer := ⟨false, total, total, none⟩ } := by
      rw [updateBrewing, inBrew, BrewTimer.update_over hfinite hover]
    refine ⟨hended, fun actions last hlast hstart now => ?_⟩
    rw [hended] at hlast
    have hidle : last.isBrewing = false := not_brewing_of_session hstart hlast rfl
    rw [updateBrewing, BrewTimer.update_of_not_running hidle]

/-- A clock that is behind at first and then goes back, and somebody who cannot wait. -/
def impatience : List Moment :=
  [ .tick 3,
    .request (.brew .permissive ⟨.latte, 0, true⟩ 3),
    .tick 14000000007,
    .request (.maintain ⟨.cleaning, false, false⟩),
    .tick 2000000007,
    .request (.refill ⟨.water, .toCapacity⟩) ]

theorem busy_until_over_impatience :
    ∃ busy, (fresh.startBrewing 15 7).after (impatience.map Moment.action) = some busy ∧
      busy.timer.elapsed = 2 ∧
      (∃ failed, (Request.maintain ⟨.diagnostic, false, false⟩).perform busy =
        .refused (.preconditionsFailed .maintenance failed) busy ∧ "machine not brewing" ∈ failed) ∧
      (busy.updateBrewing 15000000007).isBrewing = false ∧
      ∃ last, (busy.updateBrewing 15000000007).after
        [.request (.brew .permissive ⟨.latte, 0, true⟩ 3)] = some last ∧
          last.updateBrewing 99000000007 = last := by
  have hshort : ∀ now, .tick now ∈ impatience → ¬ (15 : Binary64) ≤ seconds (now - 7) := by
    intro now hnow
    simp only [impatience, List.mem_cons, Moment.tick.injEq, reduceCtorEq, false_or,
      List.not_mem_nil, or_false] at hnow
    rcases hnow with rfl | rfl | rfl <;> decide +kernel
  obtain ⟨busy, hbusy, -, -, hlast, -, hlocked, hover⟩ :=
    busy_until_over fresh (by decide +kernel) 7 hshort
  obtain ⟨hpassed, -⟩ := hlast 2000000007 rfl
  obtain ⟨hended, hstill⟩ := hover 15000000007 (by decide +kernel)
  refine ⟨busy, hbusy, hpassed.trans (by decide +kernel), hlocked _, by rw [hended]; rfl, ?_⟩
  have hends : (Machine.after { fresh with timer := ⟨false, 15, 15, none⟩ }
      [.request (.brew .permissive ⟨.latte, 0, true⟩ 3)]).isSome = true := by decide +kernel
  obtain ⟨last, hbrewed⟩ := Option.isSome_iff_exists.1 hends
  rw [← hended] at hbrewed
  exact ⟨last, hbrewed, hstill _ last hbrewed (by simp) _⟩

end Machine

end Barista
