/-
Operations that do not get in each other's way.

A refill looks at its own level and at whether the machine is ready, and writes
that level alone (`Refill.perform_restocked`), so refills of two ingredients
come to the same in either order, carried out or refused. A brew reads and
writes every level, but what it leaves beside the stock does not depend on the
stock (`Order.Brewed.restocked`), nor does its report (`Order.brewed_of_brew`);
the levels are sums and differences, which commute as natural numbers.
-/
import Barista.Proofs.Requests.Preconditions

namespace Barista

/-! ## Refills -/

namespace Refill

variable {r : Refill} {m : Machine}

theorem carryOut_restocked {stock : Stock}
    (hlevel : stock.level r.ingredient = m.stock.level r.ingredient) :
    r.carryOut { m with stock } = (r.carryOut m).map fun done =>
      (done.1, { m with stock := stock.setLevel r.ingredient (done.2.stock.level r.ingredient) }) := by
  have hadded : r.added { m with stock } = r.added m := by simp only [added, hlevel]
  simp only [carryOut, hadded, hlevel]
  cases r.added m with
  | error fault => rfl
  | ok added =>
    cases hsum : (m.stock.level r.ingredient).plus added with
    | error fault => simp [bind, Except.bind, Except.map, hsum]
    | ok after =>
      simp only [bind, Except.bind, hsum]
      cases r.postconditions (m.stock.level r.ingredient) added after with
      | error fault => rfl
      | ok postconditions => simp [Except.map, pure, Except.pure]

/-- How much there is of the ingredient after a refill, carried out or refused. -/
def leaves (r : Refill) (m : Machine) : Count := (r.perform m).machine.stock.level r.ingredient

/-- **A refill reads and writes its own level at most**: beside other levels it comes to the same. -/
theorem perform_restocked {stock : Stock}
    (hlevel : stock.level r.ingredient = m.stock.level r.ingredient) :
    r.perform { m with stock } =
      ⟨(r.perform m).result, { m with stock := stock.setLevel r.ingredient (r.leaves m) }⟩ := by
  have hpre : r.preconditions { m with stock } = r.preconditions m := by
    simp only [preconditions, available, hlevel]
    rfl
  rw [leaves]
  by_cases hmet : (r.preconditions m).allMet = true
  · obtain ⟨report, after, hdone, -⟩ := carryOut_kept hmet
    have hdone' := carryOut_restocked hlevel
    rw [hdone] at hdone'
    rw [perform, perform, Attempt.guarded_eq_done hmet hdone,
      Attempt.guarded_eq_done (hpre ▸ hmet) hdone']
    rfl
  · rw [perform, perform, hpre, Attempt.guarded_eq_refused hmet, Attempt.guarded_eq_refused hmet]
    simp only [Attempt.refused, ← hlevel, Stock.setLevel_level]

theorem perform_eq (r : Refill) (m : Machine) :
    r.perform m =
      ⟨(r.perform m).result, { m with stock := m.stock.setLevel r.ingredient (r.leaves m) }⟩ :=
  perform_restocked rfl

theorem perform_perform (m : Machine) {r s : Refill} (h : r.ingredient ≠ s.ingredient) :
    r.perform (s.perform m).machine =
      ⟨(r.perform m).result,
        { m with
          stock := (m.stock.setLevel s.ingredient (s.leaves m)).setLevel r.ingredient
            (r.leaves m) }⟩ := by
  rw [s.perform_eq m]
  exact perform_restocked (m.stock.level_setLevel_other _ h)

theorem filled_of_perform_exact {i : Ingredient} {amount : Count} {report : RefillReport}
    (h : (perform ⟨i, .exact amount⟩ m).result = .ok report) :
    Filled ⟨i, .exact amount⟩ amount m (perform ⟨i, .exact amount⟩ m).machine := by
  obtain ⟨-, hdone⟩ := Attempt.of_guarded_eq_ok h
  have hadded := Except.ok.inj (added_of_carryOut hdone)
  obtain ⟨f, -⟩ := filled_of_carryOut hdone
  rw [← hadded] at f
  exact f

end Refill

/-! ## Brews -/

namespace Order

variable {o : Order} {m after : Machine}

/-- **What a brew leaves beside the stock does not depend on the stock**, nor on when it starts. -/
theorem Brewed.restocked {after' : Machine} {start later : Nat} {stock : Stock}
    (hwhole : m.isBroken = false) (b : o.Brewed start m after)
    (b' : o.Brewed later { m with stock } after') : after' = { after with stock := after'.stock } := by
  have hwear := Machine.wear_le_of_not_broken hwhole
  have hwaste : after'.waste = after.waste := UInt32.toNat_inj.1 (b'.waste.trans b.waste.symm)
  have hworn : after'.wear = after.wear := b'.wear.trans b.wear.symm
  have hhealth : after'.health = after.health := by rw [b'.health, b.health, hworn]
  have htimer : after'.timer = after.timer := by
    rw [b'.timer, b.timer, Machine.run_brewTime hwear]
    exact Machine.run_brewTime (m := { m with stock }) hwear _ _ _
  have hmade := Except.ok.inj (b'.drinksMade.symm.trans b.drinksMade)
  have htotal := Except.ok.inj (b'.totalDrinksMade.symm.trans b.totalDrinksMade)
  have hcount := b'.maintenanceCount.trans b.maintenanceCount.symm
  have htemperature := b'.temperature.trans b.temperature.symm
  obtain ⟨⟩ := after
  obtain ⟨⟩ := after'
  simp only [Machine.mk.injEq, true_and]
  exact ⟨htemperature, hmade, htotal, hcount, hwaste, hworn, hhealth, htimer⟩

/-- What a brew that succeeds has done and what it reports. Only the brewing time in the report is
read off the machine. -/
theorem brewed_of_brew {policy : MilkPolicy} {start : Nat} {report : BrewReport}
    (h : (o.brew policy start m).result = .ok report) :
    m.isBroken = false ∧ o.Brewed start m (o.brew policy start m).machine ∧
      report = ⟨o, m.brewTime o.drink o.sugar, o.wear, (Request.brew policy o start).kept⟩ := by
  obtain ⟨hmet, hdone⟩ := Attempt.of_guarded_eq_ok h
  have b : o.Brewed start m (o.brew policy start m).machine := brewed_of_carryOut hdone
  have hmade := Count.toNat_of_plus_eq_ok b.drinksMade
  have htotal := Count.toNat_of_plus_eq_ok b.totalDrinksMade
  have hone : (1 : Count).toNat = 1 := rfl
  have hmax := (o.brew policy start m).machine.drinksMade.toNat_lt
  have hmax' := (o.brew policy start m).machine.totalDrinksMade.toNat_lt
  obtain ⟨report', after', hdone', hkept, -⟩ :=
    carryOut_kept hmet (by omega) (by omega) start
  obtain ⟨rfl, -⟩ := Prod.mk.inj (Except.ok.inj (hdone.symm.trans hdone'))
  obtain ⟨ready, -⟩ := (o.allMet_iff policy m).1 hmet
  refine ⟨ready.not_broken, b, ?_⟩
  rw [← hkept]
  exact report_of_carryOut hdone

end Order

/-! ## Two operations in either order -/

section

variable {o : Order} {r : Refill} {added : Count} {start later : Nat}
  {m brewed refilled both both' : Machine}

theorem Order.Brewed.stock_comm (b : o.Brewed start m brewed) (f : r.Filled added brewed both)
    (f' : r.Filled added m refilled) (b' : o.Brewed later refilled both') :
    both.stock = both'.stock := by
  refine Stock.ext_level fun i => UInt32.toNat_inj.1 ?_
  have htaken := Order.level_of_consume b.consumed i
  have htaken' := Order.level_of_consume b'.consumed i
  by_cases hi : i = r.ingredient
  · subst hi
    have hfilled := f.level
    have hfilled' := f'.level
    omega
  · rw [f'.others i hi] at htaken'
    rw [f.others i hi]
    omega

theorem Order.Brewed.machine_comm (hwhole : m.isBroken = false) (b : o.Brewed start m brewed)
    (f : r.Filled added brewed both) (f' : r.Filled added m refilled)
    (b' : o.Brewed later refilled both') : both = both' := by
  have hstock := b.stock_comm f f' b'
  rw [f'.frame] at b'
  rw [f.frame, b.restocked hwhole b', hstock]

end

/-- **Operations that do not depend on each other commute.** Refills of two ingredients come to the
same in either order, whatever they come to; and so do a brew and a refill by a given amount, if
they both succeed in either order. -/
theorem Machine.independent_operations_commute (m : Machine) :
    (∀ r s : Refill, r.ingredient ≠ s.ingredient →
      (r.perform (s.perform m).machine).result = (r.perform m).result ∧
        (s.perform (r.perform m).machine).result = (s.perform m).result ∧
        (s.perform (r.perform m).machine).machine = (r.perform (s.perform m).machine).machine) ∧
    ∀ (policy : MilkPolicy) (o : Order) (start later : Nat) (i : Ingredient) (amount : Count),
      let brewed := o.brew policy start m
      let brewedFilled := Refill.perform ⟨i, .exact amount⟩ brewed.machine
      let filled := Refill.perform ⟨i, .exact amount⟩ m
      let filledBrewed := o.brew policy later filled.machine
      brewed.succeeded = true → brewedFilled.succeeded = true → filled.succeeded = true →
        filledBrewed.succeeded = true →
        brewedFilled.machine = filledBrewed.machine ∧ brewed.result = filledBrewed.result := by
  constructor
  · intro r s h
    rw [Refill.perform_perform m h, Refill.perform_perform m h.symm, Stock.setLevel_comm _ _ _ h]
    exact ⟨rfl, rfl, rfl⟩
  · intro policy o start later i amount brewed brewedFilled filled filledBrewed hbrew hfill hfill'
      hbrew'
    obtain ⟨report, hbrew⟩ := Attempt.exists_of_succeeded hbrew
    obtain ⟨report', hbrew'⟩ := Attempt.exists_of_succeeded hbrew'
    obtain ⟨first, hfill⟩ := Attempt.exists_of_succeeded hfill
    obtain ⟨second, hfill'⟩ := Attempt.exists_of_succeeded hfill'
    obtain ⟨hwhole, b, rfl⟩ := Order.brewed_of_brew hbrew
    obtain ⟨-, b', rfl⟩ := Order.brewed_of_brew hbrew'
    have f := Refill.filled_of_perform_exact hfill
    have f' := Refill.filled_of_perform_exact hfill'
    refine ⟨b.machine_comm hwhole f f' b', ?_⟩
    -- The refill has changed the stock alone, which the brewing time does not depend on.
    rw [hbrew, hbrew', f'.frame]
    rfl

/-- Water and coffee for a delivered machine, which has room for the water only; and a latte beside
the water. -/
theorem Machine.independent_operations_commute_fresh :
    let water : Refill := ⟨.water, .exact 100⟩
    let coffee : Refill := ⟨.coffee, .toCapacity⟩
    let latte : Order := ⟨.latte, 3, true⟩
    (coffee.perform (water.perform fresh).machine).result = (coffee.perform fresh).result ∧
      (water.perform (latte.brew .strict 0 fresh).machine).machine =
        (latte.brew .strict 7 (water.perform fresh).machine).machine := by
  obtain ⟨hrefills, hbrews⟩ := independent_operations_commute fresh
  obtain ⟨-, hcoffee, -⟩ := hrefills ⟨.water, .exact 100⟩ ⟨.coffee, .toCapacity⟩ (by decide)
  obtain ⟨hmachine, -⟩ := hbrews .strict ⟨.latte, 3, true⟩ 0 7 .water 100 (by decide +kernel)
    (by decide +kernel) (by decide +kernel) (by decide +kernel)
  exact ⟨hcoffee, hmachine⟩

end Barista
