/-
Where counts run out of bits.

Counts are added to and taken from all over the operations, and nearly
everywhere a condition or a bound has made sure before that the result fits:
what an order takes is there, and what a refill adds has room, however full
the stock is (`Machine.Exact`). Only the counters of drinks and of services
go up with nothing in front of them. So an overflow is an exhausted counter
that is asked for one more, and nothing else (`Action.overflows_iff`); a
session is ended by no other accident (`Machine.after_eq_none_iff`).
-/
import Barista.Proofs.Requests.Operability

namespace Barista

/-- What came of a computation is that a count did not fit. -/
def overflows {α : Type} : Except Fault α → Bool
  | .error fault => fault.isOverflow
  | .ok _ => false

theorem overflows_map {α β : Type} (f : α → β) (a : Attempt α) :
    overflows (a.map f).result = overflows a.result := by
  unfold Attempt.map
  cases a.result <;> rfl

/-! ## Counters -/

theorem Count.plus_one (c : Count) :
    c.plus 1 = if c = 4294967295 then .error .additionOverflow else .ok (c + 1) := by
  have hone : (1 : Count).toNat = 1 := rfl
  have hlast : c = 4294967295 ↔ c.toNat = 4294967295 := UInt32.toNat_inj.symm
  have hfits : c.toNat + (1 : Count).toNat < UInt32.size ↔ ¬ c = 4294967295 := by
    have hlt := c.toNat_lt
    rw [hone, hlast, show UInt32.size = 4294967296 from rfl]
    omega
  simp only [plus, hfits, ite_not]

namespace Machine

/-- A counter that every drink goes into holds the largest count. -/
def DrinksExhausted (m : Machine) : Prop :=
  m.drinksMade = 4294967295 ∨ m.totalDrinksMade = 4294967295

def ServicesExhausted (m : Machine) : Prop := m.maintenanceCount = 4294967295

variable {m : Machine}

theorem drinks_lt (h : ¬ m.DrinksExhausted) :
    m.drinksMade.toNat < 4294967295 ∧ m.totalDrinksMade.toNat < 4294967295 := by
  have hmade := m.drinksMade.toNat_lt
  have htotal := m.totalDrinksMade.toNat_lt
  simp only [DrinksExhausted, not_or, ← UInt32.toNat_inj] at h
  obtain ⟨hmade', htotal'⟩ := h
  rw [show (4294967295 : Count).toNat = 4294967295 from rfl] at hmade' htotal'
  omega

theorem services_lt (h : ¬ m.ServicesExhausted) : m.maintenanceCount.toNat < 4294967295 := by
  have hcount := m.maintenanceCount.toNat_lt
  rw [ServicesExhausted, ← UInt32.toNat_inj,
    show (4294967295 : Count).toNat = 4294967295 from rfl] at h
  omega

end Machine

/-! ## Operations -/

section

variable {m : Machine}

theorem Order.carryOut_of_exhausted {o : Order} (hstock : ∀ i, o.takes i ≤ (m.stock.level i).toNat)
    (h : m.DrinksExhausted) (start : Nat) : o.carryOut start m = .error .additionOverflow := by
  obtain ⟨stock, hconsume⟩ := exists_consume hstock
  have hperform : o.perform start m = .error .additionOverflow := by
    by_cases hmade : m.drinksMade = 4294967295
    · simp only [perform, hconsume, Count.plus_one, if_pos hmade, bind, Except.bind]
    · have htotal := h.resolve_left hmade
      simp only [perform, hconsume, Count.plus_one, if_neg hmade, if_pos htotal, bind, Except.bind]
  simp only [carryOut, hperform, bind, Except.bind]

theorem Order.overflows_brew_iff (policy : MilkPolicy) (o : Order) (start : Nat) (m : Machine) :
    overflows (o.brew policy start m).result = true ↔
      (o.preconditions policy m).allMet = true ∧ m.DrinksExhausted := by
  by_cases hmet : (o.preconditions policy m).allMet = true
  · by_cases hexhausted : m.DrinksExhausted
    · obtain ⟨-, hstock, -⟩ := (o.allMet_iff policy m).1 hmet
      rw [brew, Attempt.guarded, if_pos hmet, carryOut_of_exhausted hstock hexhausted start]
      exact iff_of_true rfl ⟨hmet, hexhausted⟩
    · obtain ⟨hmade, htotal⟩ := Machine.drinks_lt hexhausted
      obtain ⟨report, after, hdone, -⟩ := carryOut_kept hmet hmade htotal start
      rw [brew, Attempt.guarded_eq_done hmet hdone]
      exact iff_of_false (by rintro ⟨⟩) fun h => hexhausted h.2
  · rw [brew, Attempt.guarded_eq_refused hmet]
    exact iff_of_false (by rintro ⟨⟩) fun h => hmet h.1

/-- A preview runs into an overflow where the brew would. -/
theorem Order.overflows_preview (policy : MilkPolicy) (o : Order) (start : Nat) (m : Machine) :
    overflows (o.preview policy start m) = overflows (o.brew policy start m).result := by
  unfold preview
  cases (o.brew policy start m).result with
  | ok report => rfl
  | error fault => cases fault <;> rfl

theorem Maintenance.overflows_perform_iff (r : Maintenance) (m : Machine) :
    overflows (r.perform m).result = true ↔
      (preconditions m).allMet = true ∧ m.ServicesExhausted := by
  by_cases hmet : (preconditions m).allMet = true
  · by_cases hexhausted : m.ServicesExhausted
    · have hcount : m.maintenanceCount.plus 1 = .error .additionOverflow :=
        (Count.plus_one _).trans (if_pos hexhausted)
      rw [perform, Attempt.guarded, if_pos hmet, carryOut, serviced, hcount]
      exact iff_of_true rfl ⟨hmet, hexhausted⟩
    · obtain ⟨after, hserviced⟩ := exists_serviced (r := r) (Machine.services_lt hexhausted)
      have hcount := (serviced_spec hserviced).maintenanceCount
      have hcarryOut : ∃ done, r.carryOut m = .ok done := by
        simp only [carryOut, postconditions, hserviced, hcount, bind, Except.bind]
        exact ⟨_, rfl⟩
      obtain ⟨⟨report, last⟩, hdone⟩ := hcarryOut
      rw [perform, Attempt.guarded_eq_done hmet hdone]
      exact iff_of_false (by rintro ⟨⟩) fun h => hexhausted h.2
  · rw [perform, Attempt.guarded_eq_refused hmet]
    exact iff_of_false (by rintro ⟨⟩) fun h => hmet h.1

theorem Refill.overflows_perform (r : Refill) (m : Machine) :
    overflows (r.perform m).result = false := by
  by_cases hmet : (r.preconditions m).allMet = true
  · obtain ⟨report, after, hdone, -⟩ := carryOut_kept hmet
    rw [perform, Attempt.guarded_eq_done hmet hdone]
    rfl
  · rw [perform, Attempt.guarded_eq_refused hmet]
    rfl

end

/-! ## Actions and sessions -/

/-- The action would count up an exhausted counter: a brew or a service whose conditions are met. -/
def Action.Exhausts (m : Machine) : Action → Prop
  | .request (.brew policy order _) =>
    (order.preconditions policy m).allMet = true ∧ m.DrinksExhausted
  | .request (.maintain _) => (Maintenance.preconditions m).allMet = true ∧ m.ServicesExhausted
  | .request (.refill _) => False
  | .change _ => False

/-- **An overflow is an exhausted counter that is asked for one more**, and nothing else. -/
theorem Action.overflows_iff (a : Action) (m : Machine) :
    overflows (a.perform m).result = true ↔ a.Exhausts m := by
  cases a with
  | change made => exact iff_of_false (by rintro ⟨⟩) id
  | request wanted =>
    rw [perform, overflows_map]
    cases wanted with
    | brew policy order start =>
      rw [Request.perform, overflows_map]
      exact order.overflows_brew_iff policy start m
    | refill wanted =>
      rw [Request.perform, overflows_map, wanted.overflows_perform]
      exact iff_of_false (by rintro ⟨⟩) id
    | maintain wanted =>
      rw [Request.perform, overflows_map]
      exact wanted.overflows_perform_iff m

theorem Machine.after_cons (m : Machine) (a : Action) (rest : List Action) :
    m.after (a :: rest) =
      if overflows (a.perform m).result then none else (a.perform m).machine.after rest := by
  rw [Machine.after]
  cases (a.perform m).result with
  | ok report => rfl
  | error fault => rfl

/-- **A session is ended by an exhausted counter alone.** -/
theorem Machine.after_eq_none_iff {m : Machine} {actions : List Action} :
    m.after actions = none ↔ ∃ done a rest last, actions = done ++ a :: rest ∧
      m.after done = some last ∧ a.Exhausts last := by
  induction actions generalizing m with
  | nil => simp [Machine.after]
  | cons a rest ih =>
    rw [after_cons]
    by_cases hends : overflows (a.perform m).result = true
    · rw [if_pos hends]
      exact ⟨fun _ => ⟨[], a, rest, m, rfl, rfl, (a.overflows_iff m).1 hends⟩, fun _ => rfl⟩
    · rw [if_neg hends, ih]
      constructor
      · rintro ⟨done, b, later, last, rfl, hdone, hexhausts⟩
        refine ⟨a :: done, b, later, last, rfl, ?_, hexhausts⟩
        rw [after_cons, if_neg hends, hdone]
      · rintro ⟨done, b, later, last, heq, hdone, hexhausts⟩
        cases done with
        | nil =>
          cases heq
          cases hdone
          exact absurd ((a.overflows_iff m).2 hexhausts) hends
        | cons first done =>
          cases heq
          rw [after_cons, if_neg hends] at hdone
          exact ⟨done, b, later, last, rfl, hdone, hexhausts⟩

/-! ## Exact counts -/

namespace Machine

/-- Every number that is worked out from the counts of a machine is the one that natural numbers
give, whatever the stock is. -/
structure Exact (m : Machine) : Prop where
  /-- What an order takes is there, when it is brewed and when the result is checked. -/
  taken (policy : MilkPolicy) (o : Order) (met : (o.preconditions policy m).allMet = true) :
    ∃ left, o.consume m.stock = .ok left ∧
      ∀ i, (left.level i).toNat + o.takes i = (m.stock.level i).toNat
  /-- What a refill adds can be worked out, and the level that comes of it is a count. -/
  added (r : Refill) (met : (r.preconditions m).allMet = true) :
    ∃ added level, r.added m = .ok added ∧ (m.stock.level r.ingredient).plus added = .ok level ∧
      level.toNat = (m.stock.level r.ingredient).toNat + added.toNat ∧
      level ≤ r.ingredient.capacity
  /-- There is no room for an ingredient of which there is more than fits. -/
  room (r : Refill) : (r.available m).toNat =
    r.ingredient.capacity.toNat - (m.stock.level r.ingredient).toNat
  fillable (r : Refill) : (r.preconditions m).allMet = true ↔ m.Ready ∧ r.Fits m
  waste (amount : Count) : (m.addWaste amount).waste.toNat = min 100 (m.waste.toNat + amount.toNat)
  /-- The milk that a drink can have is listed as required, whether or not the order has it. -/
  checks (o : Order) :
    (o.stockChecks m).map (fun check => (check.current, check.required, check.satisfied)) =
      Ingredient.all.map fun i => (((m.stock.level i).toNat : Int),
        (({ o with milk := true } : Order).takes i : Int),
        decide (o.takes i ≤ (m.stock.level i).toNat))
  brewable (policy : MilkPolicy) (o : Order) : (o.preconditions policy m).allMet = true ↔
    m.Ready ∧ (∀ i, o.takes i ≤ (m.stock.level i).toNat) ∧ o.Compatible policy
  operable : m.status.canOperate = true ↔
    0 < m.stock.water.toNat ∧ 0 < m.stock.coffee.toNat ∧ 0 < m.stock.cups.toNat ∧
      90 ≤ m.temperature ∧ m.waste.toNat < 80 ∧ m.isBroken = false ∧ m.isBrewing = false

theorem exact (m : Machine) : m.Exact where
  taken policy o met := by
    obtain ⟨-, hstock, -⟩ := (o.allMet_iff policy m).1 met
    obtain ⟨left, hleft⟩ := Order.exists_consume hstock
    exact ⟨left, hleft, Order.level_of_consume hleft⟩
  added r met := by
    obtain ⟨added, hadded, hroom⟩ := Refill.exists_added ((r.allMet_iff m).1 met).2
    have hsmall := r.ingredient.capacity.toNat_lt
    obtain ⟨level, hlevel⟩ := Count.exists_plus (Nat.lt_of_le_of_lt hroom hsmall)
    have hsum := Count.toNat_of_plus_eq_ok hlevel
    exact ⟨added, level, hadded, hlevel, hsum, UInt32.le_iff_toNat_le.2 (hsum ▸ hroom)⟩
  room r := Count.toNat_minusFloored _ _
  fillable r := r.allMet_iff m
  waste amount := m.toNat_waste_addWaste amount
  checks o := by
    have hsupplied : ∀ i, decide (o.takes i ≤ (m.stock.level i).toNat) = o.supplied m i := fun _ => rfl
    simp only [hsupplied, Ingredient.all, List.map_cons, List.map_nil, Order.supplied_milk,
      Order.supplied_cups, Order.stockChecks, UInt32.le_iff_toNat_le]
    rfl
  brewable policy o := o.allMet_iff policy m
  operable := by
    rw [canOperate_iff]
    simp only [UInt32.lt_iff_toNat_lt]
    rfl

/-- **Only exhausted counters overflow.** -/
theorem overflow_iff_exhausted (m : Machine) :
    (∀ policy o start,
      (overflows (Order.brew policy o start m).result = true ↔
        (o.preconditions policy m).allMet = true ∧ m.DrinksExhausted) ∧
      (overflows (Order.preview policy o start m) = true ↔
        (o.preconditions policy m).allMet = true ∧ m.DrinksExhausted)) ∧
    (∀ r : Maintenance, overflows (r.perform m).result = true ↔
      (Maintenance.preconditions m).allMet = true ∧ m.ServicesExhausted) ∧
    (∀ r : Refill, overflows (r.perform m).result = false) ∧ m.Exact := by
  refine ⟨fun policy o start => ⟨o.overflows_brew_iff policy start m, ?_⟩,
    fun r => r.overflows_perform_iff m, fun r => r.overflows_perform m, m.exact⟩
  rw [o.overflows_preview]
  exact o.overflows_brew_iff policy start m

/-- With both counters at their end a delivered machine overflows when it is to make a latte or to be
serviced. More sugar than there is is refused, and there is no room for cups. -/
theorem overflow_iff_exhausted_last :
    let m : Machine := { fresh with drinksMade := 4294967295, maintenanceCount := 4294967295 }
    overflows (Order.brew .strict ⟨.latte, 200, true⟩ 0 m).result = true ∧
      overflows (Order.preview .strict ⟨.latte, 201, true⟩ 0 m) = false ∧
      overflows (Maintenance.perform ⟨.deepCleaning, true, true⟩ m).result = true ∧
      (Refill.available ⟨.cups, .toCapacity⟩ m).toNat = 0 := by
  intro m
  obtain ⟨hbrew, hservice, -, hexact⟩ := overflow_iff_exhausted m
  refine ⟨(hbrew .strict ⟨.latte, 200, true⟩ 0).1.2 ⟨by decide +kernel, .inl rfl⟩, ?_,
    (hservice _).2 ⟨by decide +kernel, rfl⟩, hexact.room _⟩
  rw [Bool.eq_false_iff, ne_eq, (hbrew .strict ⟨.latte, 201, true⟩ 0).2]
  rintro ⟨hmet, -⟩
  exact absurd hmet (by decide +kernel)

end Machine

end Barista
