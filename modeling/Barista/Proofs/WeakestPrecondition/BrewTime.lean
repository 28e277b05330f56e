/-
The time that a brew takes beside the time that the analysis allows for it.

A machine works its brewing time out on its own and gives it to a tenth of a
second, and the analysis has a formula for an ideal machine. Both start from
the same sum of halves, which is a number of tenths as it is, so they are the
same double where nothing is added to it (`Machine.brewTime_eq_totalTime`).
Wear adds ten seconds at most and temperature two, sums of halves again, and
no operation on the way goes beyond bounds that are halves
(`Machine.brewTime_between_totalTime`).
-/
import Barista.Proofs.WeakestPrecondition.Verdict

namespace Barista

open Binary64 WeakestPrecondition

namespace WeakestPrecondition

/-- The time of an order as a number, without rounding. -/
theorem totalTime_value (drink : Drink) (sugar : Count) :
    (totalTime drink sugar Machine.baseBrewTime).value =
      10 + drink.brewBonus.value + sugar.toNat / 2 := by
  obtain ⟨k, -, hbonus, htime⟩ := totalTime_halves drink sugar
  rw [htime.value_eq, hbonus]
  push_cast
  ring

theorem exists_totalTime_halves (drink : Drink) (sugar : Count) :
    ∃ n, 0 < n ∧ n < 2 ^ 33 ∧ Halves n (totalTime drink sugar Machine.baseBrewTime) := by
  obtain ⟨k, hk, -, htime⟩ := totalTime_halves drink sugar
  have := sugar.toNat_lt
  exact ⟨_, by omega, by omega, htime⟩

end WeakestPrecondition

namespace Machine

variable {m : Machine}

theorem brewTime_eq (m : Machine) (drink : Drink) (sugar : Count) :
    m.brewTime drink sugar =
      let time := totalTime drink sugar baseBrewTime
      let time := if 50 < m.wear then time + m.wear * 0.1 else time
      let time := if m.temperature < 90 ∨ 98 < m.temperature then time + 2 else time
      (time * 10).round / 10 := rfl

/-- A machine that is neither slow nor too cold nor too hot needs the time of an ideal one. -/
theorem brewTime_eq_totalTime (hwear : ¬ 50 < m.wear)
    (htemperature : ¬ (m.temperature < 90 ∨ 98 < m.temperature)) (drink : Drink) (sugar : Count) :
    m.brewTime drink sugar = totalTime drink sugar baseBrewTime := by
  obtain ⟨n, hpos, hsmall, htime⟩ := exists_totalTime_halves drink sugar
  simp only [brewTime_eq, if_neg hwear, if_neg htemperature]
  exact htime.tenths_eq hpos (by omega)

/-- **Wear and temperature cost twelve seconds at most.** -/
theorem brewTime_between_totalTime (hwear : 50 < m.wear → m.wear ≤ 100) (drink : Drink)
    (sugar : Count) : Between (totalTime drink sugar baseBrewTime)
      (totalTime drink sugar baseBrewTime + 12) (m.brewTime drink sugar) := by
  obtain ⟨n, hpos, hsmall, htime⟩ := exists_totalTime_halves drink sugar
  rw [brewTime_eq]
  generalize totalTime drink sugar baseBrewTime = time at htime ⊢
  have htwo : Halves 4 (2 : Binary64) := .ofNat (n := 2) (by decide)
  have hfive : Halves 10 (5 : Binary64) := .ofNat (n := 5) (by decide)
  have htwelve : Halves 24 (12 : Binary64) := .ofNat (n := 12) (by decide)
  have hworn := htime.add hfive (by omega)
  have hwornOut := htime.add .ten (by omega)
  have hcold := htime.add htwo (by omega)
  have hboth := hwornOut.add htwo (by omega)
  have hlast := htime.add htwelve (by omega)
  have hslow := (Between.refl htime.finite).add_ite (c := 50 < m.wear)
    (fun h => wear_time_between h (hwear h)) ⟨(htime.le_iff hworn).2 (by omega),
      (htime.le_iff hwornOut).2 (by omega), hworn.finite, hwornOut.finite⟩
  have hall := hslow.add_ite (c := m.temperature < 90 ∨ 98 < m.temperature)
    (fun _ => .refl htwo.finite) ⟨(htime.le_iff hcold).2 (by omega),
      (hwornOut.le_iff hboth).2 (by omega), hcold.finite, hboth.finite⟩
  rw [hboth.unique hlast (by omega)] at hall
  exact hall.tenths htime hlast hpos (by omega)

/-- **The two computations of the brewing time agree.** The analysis works out the exact number of
seconds, which is its own rounding to a tenth. That is the time on any machine whose wear is at
most 50 and whose temperature is neither below 90 nor above 98; and whatever the temperature is, a
machine whose wear is at most 100 needs as much or up to twelve seconds more. -/
theorem brewTime_window (m : Machine) (drink : Drink) (sugar : Count) :
    let time := totalTime drink sugar baseBrewTime
    (time.isFinite = true ∧ time.value = 10 + drink.brewBonus.value + sugar.toNat / 2 ∧
      (time * 10).round / 10 = time) ∧
    (m.wear ≤ 50 → ¬ m.temperature < 90 → ¬ 98 < m.temperature →
      m.brewTime drink sugar = time) ∧
    (time + 12).value = time.value + 12 ∧
    (m.wear ≤ 100 → time ≤ m.brewTime drink sugar ∧ m.brewTime drink sugar ≤ time + 12) := by
  intro time
  obtain ⟨n, hpos, hsmall, htime⟩ := exists_totalTime_halves drink sugar
  refine ⟨⟨htime.finite, totalTime_value drink sugar, htime.tenths_eq hpos (by omega)⟩, ?_, ?_, ?_⟩
  · intro hwear hcold hhot
    refine brewTime_eq_totalTime (Binary64.not_lt_of_le hwear) ?_ drink sugar
    rintro (h | h)
    · exact hcold h
    · exact hhot h
  · have htwelve : Halves 24 (12 : Binary64) := .ofNat (n := 12) (by decide)
    rw [(htime.add htwelve (by omega)).value_eq, htime.value_eq]
    push_cast
    ring
  · intro hwear
    have hwindow := brewTime_between_totalTime (fun _ => hwear) drink sugar
    exact ⟨hwindow.low, hwindow.high⟩

/-- A latte with all the sugar that a count can hold: at a temperature that is no number it takes
its time, and on a machine that is worn out and frozen it takes all of twelve seconds more. -/
theorem brewTime_window_latte :
    let unknown : Machine := { fresh with wear := 50, temperature := .nan }
    let frozen : Machine := { fresh with wear := 100, temperature := .infinity true }
    unknown.brewTime .latte 4294967295 = totalTime .latte 4294967295 baseBrewTime ∧
      frozen.brewTime .latte 4294967295 ≤ totalTime .latte 4294967295 baseBrewTime + 12 ∧
      frozen.brewTime .latte 4294967295 = 2147483687.5 := by
  intro unknown frozen
  obtain ⟨-, hequal, -⟩ := brewTime_window unknown .latte 4294967295
  obtain ⟨-, -, -, hwindow⟩ := brewTime_window frozen .latte 4294967295
  exact ⟨hequal (by decide +kernel) (by decide +kernel) (by decide +kernel),
    (hwindow (by decide +kernel)).2, by decide +kernel⟩

end Machine

end Barista
