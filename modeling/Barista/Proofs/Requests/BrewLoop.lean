/-
The loop that runs a brew ends.

A brew moves the clock on by its whole time, in nanoseconds, until the timer
says that it is over. Nothing counts the turns: that there are two at most
rests on the time being a number of seconds that a duration can hold, for any
order that is accepted, at any temperature and any wear
(`Order.brew_loop_ends`).
-/
import Barista.Proofs.Requests.Overflow

namespace Barista

namespace Order

variable {policy : MilkPolicy} {o : Order} {start : Nat} {m : Machine}

theorem drink_made_of_brew {report : BrewReport} (h : (o.brew policy start m).result = .ok report) :
    (o.brew policy start m).machine.timer =
        ⟨false, m.brewTime o.drink o.sugar, m.brewTime o.drink o.sugar, none⟩ ∧
      report.brewTime = m.brewTime o.drink o.sugar ∧
      report.postconditions.get? "drink made" = some true := by
  obtain ⟨hmet, -⟩ := Attempt.of_guarded_eq_ok h
  obtain ⟨ready, -⟩ := (o.allMet_iff policy m).1 hmet
  -- No counter was exhausted, or there would be no report.
  have hcounters : ¬ m.DrinksExhausted := by
    intro hexhausted
    have hoverflow := (o.overflows_brew_iff policy start m).2 ⟨hmet, hexhausted⟩
    rw [h] at hoverflow
    cases hoverflow
  obtain ⟨hmade, htotal⟩ := Machine.drinks_lt hcounters
  obtain ⟨report', after, hdone, hkept, b⟩ := carryOut_kept hmet hmade htotal start
  rw [brew, Attempt.guarded_eq_done hmet hdone] at h ⊢
  cases h
  have htimer := b.timer
  rw [Machine.run_brewTime (Machine.wear_le_of_not_broken ready.not_broken)] at htimer
  refine ⟨htimer, congrArg BrewReport.brewTime (report_of_carryOut hdone), ?_⟩
  rw [hkept]
  rfl

/-- **The loop of a brew ends.** Where an order is accepted, its time is a number of fifteen seconds
or more that fits into a duration, to the nearest nanosecond; from any instant on the clock jumps
over it once or twice, always as often, and then the timer is ended at its whole time. A brew
reports that the drink was made, unless a counter is exhausted, and it does not matter when it
started. -/
theorem brew_loop_ends (hmet : (o.preconditions policy m).allMet = true) :
    let time := m.brewTime o.drink o.sugar
    let jump := BrewTimer.nanoseconds time
    let ended : BrewTimer := ⟨false, time, time, none⟩
    (time.isFinite = true ∧ 15 ≤ time) ∧
    (|(jump : ℚ) - 10 ^ 9 * time.value| ≤ 1 / 2 ∧ jump / 10 ^ 9 < 2 ^ 64) ∧
    (∃ jumps, 1 ≤ jumps ∧ jumps ≤ 2 ∧ ∀ start jumps' last,
      BrewTimer.Driven jump start (.started time start) jumps' last ↔
        jumps' = jumps ∧ last = ended) ∧
    (∀ start report, (o.brew policy start m).result = .ok report →
      (o.brew policy start m).machine.timer = ended ∧ report.brewTime = time ∧
        report.postconditions.get? "drink made" = some true) ∧
    (¬ m.DrinksExhausted → ∀ start, (o.brew policy start m).succeeded = true) ∧
    ∀ start start', o.brew policy start m = o.brew policy start' m := by
  intro time jump ended
  obtain ⟨ready, -⟩ := (o.allMet_iff policy m).1 hmet
  have hwear := Machine.wear_le_of_not_broken ready.not_broken
  have htime := Machine.brewTime_between hwear o.drink o.sugar
  obtain ⟨hlow, hhigh⟩ := Machine.brewTime_units hwear o.drink o.sugar
  have hpos := Int.lt_of_lt_of_le (Int.natCast_pos.2 Binary64.one_pos) hlow
  have hjump := BrewTimer.nanoseconds_le htime.finite hpos hhigh
  obtain ⟨jumps, htwo, hdriven⟩ := BrewTimer.driven_started htime.finite hlow hhigh
  refine ⟨⟨htime.finite, htime.low⟩, ⟨BrewTimer.nanoseconds_near htime.finite hpos, ?_⟩,
    ⟨jumps, by omega, by omega, fun start jumps' last => ⟨?_, ?_⟩⟩,
    fun start report => drink_made_of_brew, fun hcounters start => ?_, o.brew_start policy m⟩
  · exact Nat.lt_of_le_of_lt (Nat.div_le_of_le_mul hjump) (by decide)
  · exact fun h => h.unique (hdriven start)
  · rintro ⟨rfl, rfl⟩
    exact hdriven start
  · obtain ⟨hmade, htotal⟩ := Machine.drinks_lt hcounters
    obtain ⟨report, after, hdone, -⟩ := carryOut_kept hmet hmade htotal start
    rw [brew, Attempt.guarded_eq_done hmet hdone]
    rfl

/-- A latte with all the sugar that a count can hold, on a machine that is nearly broken and whose
temperature is no number. -/
theorem brew_loop_ends_sweet :
    let m : Machine := { Machine.fresh with
      stock := ⟨1000, 500, 1000, 50, 4294967295⟩, temperature := .nan, wear := 99.5 }
    let o : Order := ⟨.latte, 4294967295, true⟩
    m.brewTime o.drink o.sugar = 2147483685.5 ∧ (o.brew .strict 7 m).succeeded = true ∧
      (o.brew .strict 7 m).machine.timer = ⟨false, 2147483685.5, 2147483685.5, none⟩ := by
  intro m o
  have htime : m.brewTime o.drink o.sugar = 2147483685.5 := by decide +kernel
  have hmet : (o.preconditions .strict m).allMet = true := by decide +kernel
  obtain ⟨-, -, -, hreport, hsucceeded, -⟩ := brew_loop_ends hmet
  have hcounters : ¬ m.DrinksExhausted := by
    rintro (h | h) <;> cases h
  obtain ⟨report, hresult⟩ := Attempt.exists_of_succeeded (hsucceeded hcounters 7)
  refine ⟨htime, hsucceeded hcounters 7, ?_⟩
  rw [← htime]
  exact (hreport 7 report hresult).1

end Order

end Barista
