/-
What each operation does to a machine, field by field.

`Order.Brewed`, `Refill.Filled` and `Maintenance.Serviced` relate the machine
before and after; they are read off the operations once, and everything said
about requests later rests on them. Counts are natural numbers here, so a
difference is a sum the other way round. `Request.CarriedOut` puts the three
together, with the preconditions; a refused request leaves the machine as it
was, so what the carried out ones keep holds at the end of a run
(`Machine.after_induction`), and at the end of a session if every change of the
machine keeps it too (`Machine.session_induction`).
-/
import Barista.Proofs.Machine.Wear
import Barista.Session

namespace Barista

theorem ok_of_bind {α β : Type} {first : Except Fault α} {rest : α → Except Fault β} {b : β}
    (h : (first >>= rest) = .ok b) : ∃ a, first = .ok a ∧ rest a = .ok b := by
  cases first with
  | error fault => cases h
  | ok a => exact ⟨a, rfl, h⟩

/-! ## Counts -/

namespace Count

theorem exists_plus {a b : Count} (h : a.toNat + b.toNat < UInt32.size) : ∃ c, plus a b = .ok c := by
  unfold plus
  rw [if_pos h]
  exact ⟨_, rfl⟩

theorem exists_minus {a b : Count} (h : b.toNat ≤ a.toNat) : ∃ c, minus a b = .ok c := by
  unfold minus
  rw [if_pos (UInt32.le_iff_toNat_le.2 h)]
  exact ⟨_, rfl⟩

theorem toNat_plusCapped (a b : Count) :
    (plusCapped a b).toNat = min 4294967295 (a.toNat + b.toNat) := by
  unfold plusCapped
  have hsize : UInt32.size = 4294967296 := rfl
  split
  · rw [UInt32.toNat_add]
    omega
  · rw [show (4294967295 : Count).toNat = 4294967295 from rfl]
    omega

end Count

theorem Machine.toNat_waste_addWaste (amount : Count) (m : Machine) :
    (m.addWaste amount).waste.toNat = min 100 (m.waste.toNat + amount.toNat) := by
  have hcapped := Count.toNat_plusCapped m.waste amount
  have hhundred : (100 : Count).toNat = 100 := rfl
  simp only [addWaste, setWaste]
  split
  · next hle =>
    rw [UInt32.le_iff_toNat_le] at hle
    omega
  · next hle =>
    rw [UInt32.le_iff_toNat_le] at hle
    omega

/-! ## Behind the preconditions -/

namespace Attempt

variable {α : Type} {operation : Operation} {required : Conditions} {m : Machine}
  {carriedOut : Except Fault (α × Machine)}

theorem of_guarded_eq_ok {report : α}
    (h : (guarded operation required m carriedOut).result = .ok report) :
    required.allMet = true ∧
      carriedOut = .ok (report, (guarded operation required m carriedOut).machine) := by
  unfold guarded at h ⊢
  split at h
  · next hmet =>
    rw [if_pos hmet]
    cases carriedOut with
    | error fault => cases h
    | ok done =>
      cases h
      exact ⟨hmet, rfl⟩
  · cases h

theorem exists_of_succeeded {a : Attempt α} (h : a.succeeded = true) :
    ∃ report, a.result = .ok report := by
  unfold succeeded at h
  cases hresult : a.result with
  | error fault => rw [hresult] at h; cases h
  | ok report => exact ⟨report, rfl⟩

theorem of_map_eq_ok {β : Type} {f : α → β} {a : Attempt α} {b : β} (h : (a.map f).result = .ok b) :
    ∃ report, a.result = .ok report ∧ f report = b := by
  unfold map at h
  cases hresult : a.result with
  | error fault => rw [hresult] at h; cases h
  | ok report =>
    rw [hresult] at h
    cases h
    exact ⟨report, rfl, rfl⟩

theorem of_map_eq_error {β : Type} {f : α → β} {a : Attempt α} {fault : Fault}
    (h : (a.map f).result = .error fault) : a.result = .error fault := by
  unfold map at h
  cases hresult : a.result with
  | error fault' => rw [hresult] at h; cases h; rfl
  | ok report => rw [hresult] at h; cases h

theorem machine_of_guarded_eq_error {fault : Fault}
    (h : (guarded operation required m carriedOut).result = .error fault) :
    (guarded operation required m carriedOut).machine = m := by
  unfold guarded at h ⊢
  split at h
  · next hmet =>
    rw [if_pos hmet]
    cases carriedOut with
    | error fault => rfl
    | ok done => cases h
  · next hmet =>
    rw [if_neg hmet]
    rfl

theorem guarded_eq_done {report : α} {after : Machine} (hmet : required.allMet = true)
    (hdone : carriedOut = .ok (report, after)) :
    guarded operation required m carriedOut = done report after := by
  rw [guarded, if_pos hmet, hdone]
  rfl

theorem guarded_eq_refused (hunmet : ¬ required.allMet = true) :
    guarded operation required m carriedOut =
      refused (.preconditionsFailed operation required.failed) m := by
  rw [guarded, if_neg hunmet]

/-- **Preconditions that suffice.** If meeting them lets the operation be carried out, then it
succeeds exactly if they are met, and the refusal names the ones that are not. -/
theorem map_guarded_exact {β : Type} {f : α → β} {P : β → Machine → Prop}
    (hsuffice : required.allMet = true → ∃ report after, carriedOut = .ok (report, after) ∧
      P (f report) after) :
    let attempt := (guarded operation required m carriedOut).map f
    (attempt.succeeded = true ↔ required.allMet = true) ∧
      (∀ report, attempt.result = .ok report → P report attempt.machine) ∧
      ∀ fault, attempt.result = .error fault →
        fault = .preconditionsFailed operation required.failed ∧ required.failed ≠ [] ∧
          attempt.machine = m := by
  intro attempt
  by_cases hmet : required.allMet = true
  · obtain ⟨report, after, hdone, hP⟩ := hsuffice hmet
    have hattempt : attempt = done (f report) after :=
      congrArg (map f) (guarded_eq_done hmet hdone)
    rw [hattempt]
    refine ⟨⟨fun _ => hmet, fun _ => rfl⟩, ?_, ?_⟩
    · intro report' h
      cases h
      exact hP
    · intro fault h
      cases h
  · have hattempt : attempt = refused (.preconditionsFailed operation required.failed) m :=
      congrArg (map f) (guarded_eq_refused hmet)
    have hfailed : required.failed ≠ [] := fun h => hmet (required.allMet_iff_failed_eq_nil.2 h)
    rw [hattempt]
    refine ⟨⟨?_, fun h => absurd h hmet⟩, ?_, ?_⟩
    · intro h
      cases h
    · intro report h
      cases h
    · intro fault h
      cases h
      exact ⟨rfl, hfailed, rfl⟩

end Attempt

/-! ## Brewing -/

namespace Order

variable {o : Order} {start : Nat} {m after : Machine}

/-- What the order takes of each ingredient. -/
def takes (o : Order) : Ingredient → Nat
  | .water => o.drink.recipe.water.toNat
  | .coffee => o.drink.recipe.coffee.toNat
  | .milk => if o.milk then o.drink.recipe.milk.toNat else 0
  | .cups => 1
  | .sugar => o.sugar.toNat

theorem toNat_milkUsed (o : Order) : o.milkUsed.toNat = o.takes .milk := by
  simp only [milkUsed, takes]
  split <;> rfl

theorem level_of_consume {s s' : Stock} (h : o.consume s = .ok s') (i : Ingredient) :
    (s'.level i).toNat + o.takes i = (s.level i).toNat := by
  obtain ⟨water, hwater, h⟩ := ok_of_bind h
  obtain ⟨coffee, hcoffee, h⟩ := ok_of_bind h
  obtain ⟨milk, hmilk, h⟩ := ok_of_bind h
  obtain ⟨sugar, hsugar, h⟩ := ok_of_bind h
  obtain ⟨cups, hcups, h⟩ := ok_of_bind h
  cases h
  cases i with
  | water => exact Count.toNat_of_minus_eq_ok hwater
  | coffee => exact Count.toNat_of_minus_eq_ok hcoffee
  | milk => exact toNat_milkUsed o ▸ Count.toNat_of_minus_eq_ok hmilk
  | cups => exact Count.toNat_of_minus_eq_ok hcups
  | sugar => exact Count.toNat_of_minus_eq_ok hsugar

theorem exists_consume {s : Stock} (h : ∀ i, o.takes i ≤ (s.level i).toNat) :
    ∃ s', o.consume s = .ok s' := by
  obtain ⟨water, hwater⟩ := Count.exists_minus (h .water)
  obtain ⟨coffee, hcoffee⟩ := Count.exists_minus (h .coffee)
  obtain ⟨milk, hmilk⟩ := Count.exists_minus (toNat_milkUsed o ▸ h .milk)
  obtain ⟨cups, hcups⟩ := Count.exists_minus (b := 1) (h .cups)
  obtain ⟨sugar, hsugar⟩ := Count.exists_minus (h .sugar)
  simp only [Stock.level] at hwater hcoffee hmilk hcups hsugar
  refine ⟨{ water, coffee, milk, cups, sugar }, ?_⟩
  simp only [consume, hwater, hcoffee, hmilk, hcups, hsugar]
  rfl

/-- The machine before and after an order was brewed on it. -/
structure Brewed (o : Order) (start : Nat) (before after : Machine) : Prop where
  consumed : o.consume before.stock = .ok after.stock
  drinksMade : before.drinksMade.plus 1 = .ok after.drinksMade
  totalDrinksMade : before.totalDrinksMade.plus 1 = .ok after.totalDrinksMade
  maintenanceCount : after.maintenanceCount = before.maintenanceCount
  temperature : after.temperature = before.temperature
  waste : after.waste.toNat = min 100 (before.waste.toNat + 2)
  wear : after.wear = (before.wear + o.wear).least 100
  health : after.health = Machine.healthAt after.wear
  timer : after.timer = BrewTimer.run (before.brewTime o.drink o.sugar) start

theorem brewed_of_perform (h : o.perform start m = .ok after) : o.Brewed start m after := by
  obtain ⟨stock, hstock, h⟩ := ok_of_bind h
  obtain ⟨made, hmade, h⟩ := ok_of_bind h
  obtain ⟨total, htotal, h⟩ := ok_of_bind h
  cases h
  exact ⟨hstock, hmade, htotal, rfl, rfl, Machine.toNat_waste_addWaste wastePerDrink _, rfl, rfl, rfl⟩

theorem brewed_of_carryOut {report : BrewReport} (h : o.carryOut start m = .ok (report, after)) :
    o.Brewed start m after := by
  obtain ⟨brewed, hbrewed, h⟩ := ok_of_bind h
  obtain ⟨postconditions, -, h⟩ := ok_of_bind h
  cases h
  exact brewed_of_perform hbrewed

theorem report_of_carryOut {report : BrewReport}
    (h : o.carryOut start m = .ok (report, after)) :
    report = ⟨o, m.brewTime o.drink o.sugar, o.wear, report.postconditions⟩ := by
  obtain ⟨brewed, -, h⟩ := ok_of_bind h
  obtain ⟨postconditions, -, h⟩ := ok_of_bind h
  cases h
  rfl

theorem exists_perform (hstock : ∀ i, o.takes i ≤ (m.stock.level i).toNat)
    (hmade : m.drinksMade.toNat < 4294967295) (htotal : m.totalDrinksMade.toNat < 4294967295) :
    ∃ after, o.perform start m = .ok after := by
  have hone : (1 : Count).toNat = 1 := rfl
  have hsize : UInt32.size = 4294967296 := rfl
  obtain ⟨stock, hstock⟩ := exists_consume hstock
  obtain ⟨made, hmade⟩ := Count.exists_plus (a := m.drinksMade) (b := 1) (by omega)
  obtain ⟨total, htotal⟩ := Count.exists_plus (a := m.totalDrinksMade) (b := 1) (by omega)
  simp only [perform, hstock, hmade, htotal]
  exact ⟨_, rfl⟩

end Order

/-! ## Refilling -/

namespace Refill

variable {r : Refill} {m after : Machine} {report : RefillReport}

/-- The machine before and after so much was added of an ingredient. -/
structure Filled (r : Refill) (added : Count) (before after : Machine) : Prop where
  level : (after.stock.level r.ingredient).toNat =
    (before.stock.level r.ingredient).toNat + added.toNat
  others : ∀ i, i ≠ r.ingredient → after.stock.level i = before.stock.level i
  frame : after = { before with stock := after.stock }

theorem filled_of_carryOut (h : r.carryOut m = .ok (report, after)) :
    r.Filled report.added m after ∧ report.ingredient = r.ingredient := by
  obtain ⟨added, hadded, h⟩ := ok_of_bind h
  obtain ⟨level, hlevel, h⟩ := ok_of_bind h
  obtain ⟨postconditions, hpost, h⟩ := ok_of_bind h
  cases h
  refine ⟨⟨?_, fun i hi => m.stock.level_setLevel_other level hi, rfl⟩, rfl⟩
  rw [Stock.level_setLevel_self]
  exact Count.toNat_of_plus_eq_ok hlevel

theorem added_of_carryOut (h : r.carryOut m = .ok (report, after)) : r.added m = .ok report.added := by
  obtain ⟨added, hadded, h⟩ := ok_of_bind h
  obtain ⟨level, -, h⟩ := ok_of_bind h
  obtain ⟨postconditions, -, h⟩ := ok_of_bind h
  cases h
  exact hadded

end Refill

/-! ## Maintenance -/

namespace Maintenance

variable {r : Maintenance} {m after : Machine} {report : MaintenanceReport}

/-- The machine before and after a service. -/
structure Serviced (r : Maintenance) (before after : Machine) : Prop where
  stock : after.stock = if r.drains then before.stock.setLevel .water 0 else before.stock
  temperature : after.temperature = serviceTemperature
  drinksMade : after.drinksMade = if r.resetStatistics then 0 else before.drinksMade
  totalDrinksMade : after.totalDrinksMade = before.totalDrinksMade
  maintenanceCount : before.maintenanceCount.plus 1 = .ok after.maintenanceCount
  waste : after.waste = 0
  wear : after.wear = (before.wear - r.service.wearReduction).greatest 0
  health : after.health = Machine.healthAt after.wear
  timer : after.timer = before.timer

theorem serviced_spec (h : r.serviced m = .ok after) : r.Serviced m after := by
  obtain ⟨count, hcount, h⟩ := ok_of_bind h
  cases h
  constructor <;> cases r.drains <;> cases r.resetStatistics <;>
    simp only [Bool.false_eq_true, if_true, if_false, Machine.reduceWear, Machine.setWear,
      Machine.setWaste]
  all_goals first | exact hcount | rfl

theorem serviced_of_carryOut (h : r.carryOut m = .ok (report, after)) : r.Serviced m after := by
  obtain ⟨serviced, hserviced, h⟩ := ok_of_bind h
  obtain ⟨postconditions, -, h⟩ := ok_of_bind h
  cases h
  exact serviced_spec hserviced

theorem exists_serviced (hcount : m.maintenanceCount.toNat < 4294967295) :
    ∃ after, r.serviced m = .ok after := by
  have hone : (1 : Count).toNat = 1 := rfl
  have hsize : UInt32.size = 4294967296 := rfl
  obtain ⟨count, hcount⟩ := Count.exists_plus (a := m.maintenanceCount) (b := 1) (by omega)
  simp only [serviced, hcount]
  exact ⟨_, rfl⟩

end Maintenance

/-! ## Requests -/

namespace Request

/-- A request was carried out: its preconditions were met on the machine before, and its effect
leads to the machine after. -/
inductive CarriedOut (before after : Machine) : Request → Report → Prop
  | brewed {policy : MilkPolicy} {order : Order} {start : Nat} {report : BrewReport}
    (met : (order.preconditions policy before).allMet = true)
    (effect : order.Brewed start before after) :
    CarriedOut before after (.brew policy order start) (.brewed report)
  | refilled {wanted : Refill} {report : RefillReport}
    (met : (wanted.preconditions before).allMet = true)
    (effect : wanted.Filled report.added before after)
    (same : report.ingredient = wanted.ingredient) :
    CarriedOut before after (.refill wanted) (.refilled report)
  | serviced {wanted : Maintenance} {report : MaintenanceReport}
    (met : (Maintenance.preconditions before).allMet = true)
    (effect : wanted.Serviced before after) :
    CarriedOut before after (.maintain wanted) (.serviced report)

variable {m : Machine} {r : Request}

/-- **A request that reports has been carried out.** -/
theorem carriedOut_of_perform {report : Report} (h : (r.perform m).result = .ok report) :
    r.CarriedOut m (r.perform m).machine report := by
  cases r with
  | brew policy order start =>
    obtain ⟨brewed, hresult, rfl⟩ := Attempt.of_map_eq_ok h
    obtain ⟨hmet, hdone⟩ := Attempt.of_guarded_eq_ok hresult
    exact .brewed hmet (Order.brewed_of_carryOut hdone)
  | refill wanted =>
    obtain ⟨filled, hresult, rfl⟩ := Attempt.of_map_eq_ok h
    obtain ⟨hmet, hdone⟩ := Attempt.of_guarded_eq_ok hresult
    obtain ⟨hfilled, hsame⟩ := Refill.filled_of_carryOut hdone
    exact .refilled hmet hfilled hsame
  | maintain wanted =>
    obtain ⟨serviced, hresult, rfl⟩ := Attempt.of_map_eq_ok h
    obtain ⟨hmet, hdone⟩ := Attempt.of_guarded_eq_ok hresult
    exact .serviced hmet (Maintenance.serviced_of_carryOut hdone)

theorem machine_of_error {fault : Fault} (h : (r.perform m).result = .error fault) :
    (r.perform m).machine = m := by
  cases r with
  | brew policy order start =>
    exact Attempt.machine_of_guarded_eq_error (Attempt.of_map_eq_error h)
  | refill wanted => exact Attempt.machine_of_guarded_eq_error (Attempt.of_map_eq_error h)
  | maintain wanted => exact Attempt.machine_of_guarded_eq_error (Attempt.of_map_eq_error h)

end Request

/-! ## Sessions -/

theorem Machine.timer_foldl_apply (settings : List Setting) (m : Machine) :
    (settings.foldl Setting.apply m).timer = m.timer := by
  induction settings generalizing m with
  | nil => rfl
  | cons s rest ih =>
    rw [List.foldl_cons, ih]
    cases s <;> rfl

namespace Machine

theorem after_change (m : Machine) (c : Change) (rest : List Action) :
    m.after (.change c :: rest) = (c.apply m).after rest := rfl

/-- A session goes on after a refusal as if nothing had been asked for. -/
theorem after_request_of_refused {m : Machine} {r : Request} {fault : Fault}
    (h : r.perform m = .refused fault m) (hfault : fault.isOverflow = false) (rest : List Action) :
    m.after (.request r :: rest) = m.after rest := by
  simp only [after, Action.perform, h, Attempt.map, Attempt.refused, Except.map, hfault,
    Bool.false_eq_true, if_false]

theorem after_of_after_cons {m last : Machine} {a : Action} {rest : List Action}
    (h : m.after (a :: rest) = some last) : (a.perform m).machine.after rest = some last := by
  simp only [after] at h
  split at h
  · exact h
  · split at h
    · cases h
    · exact h

/-- What every request that is carried out keeps, and every change that is made, holds at the end of
a session. -/
theorem session_induction {P : Machine → Prop} {actions : List Action}
    (hrequest : ∀ (m after : Machine) (r : Request) (report : Report), P m →
      r.CarriedOut m after report → P after)
    (hchange : ∀ (m : Machine) (c : Change), Action.change c ∈ actions → P m → P (c.apply m))
    {m last : Machine} (h : m.after actions = some last) (hstart : P m) : P last := by
  induction actions generalizing m with
  | nil =>
    cases h
    exact hstart
  | cons a rest ih =>
    refine ih (fun m c hc => hchange m c (List.mem_cons_of_mem a hc)) (after_of_after_cons h) ?_
    cases a with
    | change c => exact hchange m c List.mem_cons_self hstart
    | request r =>
      show P (r.perform m).machine
      cases hresult : (r.perform m).result with
      | ok report => exact hrequest m _ r report hstart (Request.carriedOut_of_perform hresult)
      | error fault =>
        rw [Request.machine_of_error hresult]
        exact hstart

/-- What every request that is carried out keeps holds at the end of a run of requests. -/
theorem after_induction {P : Machine → Prop}
    (hkept : ∀ (m after : Machine) (r : Request) (report : Report), P m →
      r.CarriedOut m after report → P after)
    {m last : Machine} {requests : List Request}
    (h : m.after (requests.map Action.request) = some last) (hstart : P m) : P last := by
  refine session_induction hkept (fun _ c hc => ?_) h hstart
  obtain ⟨r, -, heq⟩ := List.mem_map.1 hc
  cases heq

end Machine

end Barista
