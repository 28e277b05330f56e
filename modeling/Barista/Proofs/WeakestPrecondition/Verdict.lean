/-
The verdict in advance agrees with what brewing does.

Four parts look at the same facts: the conditions of brewing, the stock
checks, the preview and the verdict. A stock check is satisfied exactly if the
condition of its resource is met (`Order.satisfied_stockChecks`), so the
checks add nothing to the conditions; the preview reports what brewing would
(`Order.preview_eq`); and the time bound, though computed in doubles, is the
bound on the exact number of seconds, which doubles hold as halves
(`WeakestPrecondition.totalTime_halves`). What remains beside the conditions
is time and cost.
-/
import Barista.Proofs.Binary64.Halves
import Barista.Proofs.Requests.Preconditions
import Barista.WeakestPrecondition.Basic

namespace Barista

open Binary64

/-! ## Brewing and its preview -/

namespace Order

variable {o : Order} {m : Machine}

/-- As long as the counters fit, brewing is decided by its conditions. -/
theorem brew_cases (policy : MilkPolicy) (o : Order) (hmade : m.drinksMade.toNat < 4294967295)
    (htotal : m.totalDrinksMade.toNat < 4294967295) (start : Nat) :
    ((o.preconditions policy m).allMet = true ∧ ∃ report, (o.brew policy start m).result = .ok report ∧
        report.postconditions.entries = postconditionNames.map (·, true)) ∨
      ((o.preconditions policy m).allMet = false ∧ (o.brew policy start m).result =
        .error (.preconditionsFailed .brew (o.preconditions policy m).failed)) := by
  cases hmet : (o.preconditions policy m).allMet with
  | true =>
    obtain ⟨report, after, hdone, hpost, -⟩ := carryOut_kept hmet hmade htotal start
    refine .inl ⟨rfl, report, ?_, ?_⟩
    · rw [brew, Attempt.guarded_eq_done hmet hdone]
      rfl
    · rw [hpost]
      exact Conditions.entries_ofList (by simp [Request.promises])
  | false =>
    refine .inr ⟨rfl, ?_⟩
    rw [brew, Attempt.guarded, if_neg (by simp [hmet])]
    rfl

/-- **The preview reports every postcondition as the conditions are**: all met or none. -/
theorem preview_eq (policy : MilkPolicy) (o : Order) (hmade : m.drinksMade.toNat < 4294967295)
    (htotal : m.totalDrinksMade.toNat < 4294967295) (start : Nat) :
    ∃ postconditions, o.preview policy start m = .ok postconditions ∧
      postconditions.entries = postconditionNames.map (·, (o.preconditions policy m).allMet) := by
  rcases brew_cases policy o hmade htotal start with ⟨hmet, report, hresult, hpost⟩ | ⟨hmet, hresult⟩
  · refine ⟨report.postconditions, ?_, by rw [hmet, hpost]⟩
    rw [preview, hresult]
  · refine ⟨.ofList (postconditionNames.map (·, false)), ?_, ?_⟩
    · rw [preview, hresult]
    · rw [hmet]
      exact Conditions.entries_ofList (by simp [postconditionNames])

/-! ## Stock checks -/

/-- **A stock check is satisfied as the condition of its resource is met.** -/
theorem satisfied_stockChecks (policy : MilkPolicy) (o : Order) (m : Machine) :
    (o.stockChecks m).map (fun check => (check.name, some check.satisfied)) =
      Ingredient.all.map fun i => (i.name, (o.preconditions policy m).get? (supplyCondition i)) := by
  simp only [get?_supplyCondition, Ingredient.all, List.map_cons, List.map_nil, supplied_milk,
    supplied_cups, stockChecks, UInt32.le_iff_toNat_le]
  rfl

theorem sufficient_stockChecks {policy : MilkPolicy}
    (hmet : (o.preconditions policy m).allMet = true) :
    WeakestPrecondition.sufficient (o.stockChecks m) = true := by
  obtain ⟨-, hsupplied, -⟩ := (o.allMet_iff policy m).1 hmet
  have hchecks : (o.stockChecks m).map (fun check => some check.satisfied) =
      Ingredient.all.map fun i => some (o.supplied m i) := by
    have h := congrArg (List.map Prod.snd) (satisfied_stockChecks policy o m)
    simpa only [List.map_map, Function.comp_def, get?_supplyCondition] using h
  rw [WeakestPrecondition.sufficient, List.all_eq_true]
  intro check hcheck
  have hmem : some check.satisfied ∈ Ingredient.all.map fun i => some (o.supplied m i) := by
    rw [← hchecks]
    exact List.mem_map_of_mem hcheck
  obtain ⟨i, -, heq⟩ := List.mem_map.1 hmem
  rw [← Option.some.inj heq, supplied]
  exact decide_eq_true (hsupplied i)

end Order

/-! ## Time -/

namespace WeakestPrecondition

theorem exists_brewBonus (drink : Drink) : ∃ k ≤ 18, drink.brewBonus = Binary64.ofNat k := by
  cases drink <;> exact ⟨_, by decide, rfl⟩

/-- **The time of an order is exact**: every term of it is a number of halves. -/
theorem totalTime_halves (drink : Drink) (sugar : Count) : ∃ k ≤ 18,
    drink.brewBonus.value = (k : Nat) ∧ Halves (20 + 2 * k + sugar.toNat)
      (totalTime drink sugar Machine.baseBrewTime) := by
  obtain ⟨k, hk, hbonus⟩ := exists_brewBonus drink
  have hsugar := sugar.toNat_lt
  have hportions : Halves sugar.toNat (sugarTime sugar) := (Halves.ofNat (by omega)).mul_half (by omega)
  have hten : Halves 20 Machine.baseBrewTime := Halves.ofNat (n := 10) (by decide)
  have hdrink : Halves (2 * k) drink.brewBonus := hbonus ▸ Halves.ofNat (by omega)
  have hbase := hten.add hdrink (by omega)
  refine ⟨k, hk, ?_, ?_⟩
  · rw [hdrink.value_eq]
    push_cast
    ring
  · simp only [totalTime]
    split
    · exact hbase.add hportions (by omega)
    · next hnone =>
      have hzero : sugar.toNat = 0 := by
        rw [UInt32.lt_iff_toNat_lt] at hnone
        exact Nat.eq_zero_of_not_pos hnone
      rwa [hzero]

theorem within_totalTime_iff (drink : Drink) (sugar : Count) :
    within (totalTime drink sugar Machine.baseBrewTime) maxTime = true ↔
      (10 : ℚ) + drink.brewBonus.value + sugar.toNat / 2 < 60 := by
  obtain ⟨k, -, hbonus, htime⟩ := totalTime_halves drink sugar
  have hzero : Halves 0 (0 : Binary64) := Halves.ofNat (n := 0) (by decide)
  have hmax : Halves 120 maxTime := Halves.ofNat (n := 60) (by decide)
  have hpos : 0 < 20 + 2 * k + sugar.toNat := by omega
  rw [within, Bool.and_eq_true, decide_eq_true_eq, decide_eq_true_eq, hzero.lt_iff htime,
    htime.lt_iff hmax, hbonus, and_iff_right hpos, ← @Nat.cast_lt ℚ]
  push_cast
  constructor
  · intro h
    linarith
  · intro h
    linarith

/-! ## The verdict -/

theorem verdict_eq {r : Request} {cost : Binary64} (hcost : r.cost = .ok cost) :
    r.verdict = .ok ((r.preconditions.allMet && sufficient r.resources) &&
      (within r.time maxTime && within cost maxCost)) := by
  simp only [Request.verdict, hcost, Request.parts, bind, Except.bind, List.all_cons, List.all_nil,
    id, Bool.and_true, Bool.and_assoc]
  rfl

/-- **The verdict agrees with what brewing does.** With a base price and counters that fit, it is
true if and only if the order is brewed, its exact time is below a minute and its cost within
bounds; and then every postcondition is met. The preview has them all met if the conditions are,
and none otherwise, and every stock check is satisfied as the condition of its resource is met. -/
theorem verdict_iff_brewed (policy : MilkPolicy) (o : Order) (m : Machine) (prices : Prices)
    {base : Binary64} (hbase : prices.lookup "base" = some base)
    (hmade : m.drinksMade.toNat < 4294967295) (htotal : m.totalDrinksMade.toNat < 4294967295)
    (asked start : Nat) :
    ∃ postconditions cost verdict,
      o.preview policy asked m = .ok postconditions ∧
      totalCost o.drink o.sugar prices = .ok cost ∧
      (o.analysis policy m postconditions prices).verdict = .ok verdict ∧
      (verdict = true ↔ (o.brew policy start m).succeeded = true ∧
        (10 : ℚ) + o.drink.brewBonus.value + o.sugar.toNat / 2 < 60 ∧ 0 < cost ∧ cost < 500) ∧
      (verdict = true → ∃ report, (o.brew policy start m).result = .ok report ∧
        report.postconditions.entries = Order.postconditionNames.map (·, true)) ∧
      postconditions.entries =
        Order.postconditionNames.map (·, (o.preconditions policy m).allMet) ∧
      (o.stockChecks m).map (fun check => (check.name, some check.satisfied)) =
        Ingredient.all.map fun i =>
          (i.name, (o.preconditions policy m).get? (Order.supplyCondition i)) := by
  obtain ⟨postconditions, hpreview, hentries⟩ := o.preview_eq policy hmade htotal asked
  obtain ⟨cost, hcost⟩ : ∃ cost, totalCost o.drink o.sugar prices = .ok cost := by
    simp only [totalCost, basePrice, show prices.lookup baseKey = some base from hbase]
    exact ⟨_, rfl⟩
  have hverdict := verdict_eq (r := o.analysis policy m postconditions prices) hcost
  have hbounds : (within (totalTime o.drink o.sugar Machine.baseBrewTime) maxTime &&
      within cost maxCost) = true ↔
      (10 : ℚ) + o.drink.brewBonus.value + o.sugar.toNat / 2 < 60 ∧ 0 < cost ∧ cost < 500 := by
    rw [Bool.and_eq_true, within_totalTime_iff, within, Bool.and_eq_true, decide_eq_true_eq,
      decide_eq_true_eq]
    rfl
  refine ⟨postconditions, cost, _, hpreview, hcost, hverdict, ?_, ?_, hentries,
    o.satisfied_stockChecks policy m⟩
  · rw [Bool.and_eq_true]
    refine and_congr ?_ hbounds
    rcases o.brew_cases policy hmade htotal start with ⟨hmet, report, hresult, -⟩ | ⟨hmet, hresult⟩
    · simp [Order.analysis, hmet, Order.sufficient_stockChecks hmet, Attempt.succeeded, hresult,
        Except.isOk, Except.toBool]
    · simp [Order.analysis, hmet, Attempt.succeeded, hresult, Except.isOk, Except.toBool]
  · intro htrue
    rcases o.brew_cases policy hmade htotal start with ⟨-, hbrewed⟩ | ⟨hmet, -⟩
    · exact hbrewed
    · simp [Order.analysis, hmet] at htrue

/-- On a delivered machine an espresso with 89 portions of sugar takes 59.5 seconds and costs 495.
One portion more is brewed too, but takes a whole minute. -/
theorem verdict_iff_brewed_espresso :
    let espresso (sugar : Count) : Order := ⟨.espresso, sugar, false⟩
    (∃ postconditions, (espresso 89).preview .strict 0 .fresh = .ok postconditions ∧
      ((espresso 89).analysis .strict .fresh postconditions defaultPrices).verdict = .ok true) ∧
    ((espresso 90).brew .strict 0 .fresh).succeeded = true ∧
      ∃ postconditions, (espresso 90).preview .strict 0 .fresh = .ok postconditions ∧
        ((espresso 90).analysis .strict .fresh postconditions defaultPrices).verdict = .ok false := by
  intro espresso
  have hbonus : Drink.espresso.brewBonus.value = 5 := by
    rw [show Drink.espresso.brewBonus = Binary64.ofNat 5 from rfl,
      (Halves.ofNat (n := 5) (by decide)).value_eq]
    norm_num
  have hbrewed : ((espresso 89).brew .strict 0 .fresh).succeeded = true ∧
      ((espresso 90).brew .strict 0 .fresh).succeeded = true := by decide +kernel
  refine ⟨?_, hbrewed.2, ?_⟩
  · obtain ⟨postconditions, cost, verdict, hpreview, hcost, hverdict, hiff, -⟩ :=
      verdict_iff_brewed .strict (espresso 89) .fresh defaultPrices rfl (by decide) (by decide) 0 0
    have hbounds : (totalCost .espresso 89 defaultPrices).toOption.any
        (fun cost => 0 < cost ∧ cost < 500) = true := by decide +kernel
    rw [show totalCost .espresso 89 defaultPrices = .ok cost from hcost] at hbounds
    refine ⟨postconditions, hpreview, ?_⟩
    rw [hverdict, hiff.2 ⟨hbrewed.1, ?_, of_decide_eq_true hbounds⟩]
    show (10 : ℚ) + Drink.espresso.brewBonus.value + (89 : Count).toNat / 2 < 60
    rw [hbonus, show (89 : Count).toNat = 89 from rfl]
    norm_num
  · obtain ⟨postconditions, cost, verdict, hpreview, -, hverdict, hiff, -⟩ :=
      verdict_iff_brewed .strict (espresso 90) .fresh defaultPrices rfl (by decide) (by decide) 0 0
    refine ⟨postconditions, hpreview, ?_⟩
    have hfalse : verdict = false := by
      rw [← Bool.not_eq_true]
      intro htrue
      have htime : (10 : ℚ) + Drink.espresso.brewBonus.value + (90 : Count).toNat / 2 < 60 :=
        (hiff.1 htrue).2.1
      rw [hbonus, show (90 : Count).toNat = 90 from rfl] at htime
      norm_num at htime
    rw [hverdict, hfalse]

end WeakestPrecondition

end Barista
