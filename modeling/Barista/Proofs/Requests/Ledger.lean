/-
The ledger of a run.

A run of requests leaves a log of those that were carried out
(`Machine.log`). What one entry does to each level and each counter is
`Entry.Effect`, read off the operations; summed up over the log it is
`Machine.ledger`: stock is conserved, two counters only grow, and two count
since the last service that set them back.
-/
import Barista.Proofs.Requests.Conditions
import Mathlib.Algebra.BigOperators.Ring.List
import Mathlib.Data.List.DropRight

namespace Barista

/-! ## The log -/

/-- A request that was carried out, with the machine it found and what it reported. -/
structure Entry where
  request : Request
  before : Machine
  report : Report

namespace Entry

/-- What the entry took of an ingredient: an order takes its recipe, one cup and its sugar, and milk
only if it has some. -/
def consumed (i : Ingredient) (e : Entry) : Nat :=
  match e.request with
  | .brew _ order _ => order.takes i
  | _ => 0

/-- What a refill says it added of an ingredient. -/
def added (i : Ingredient) (e : Entry) : Nat :=
  match e.report with
  | .refilled report => if report.ingredient = i then report.added.toNat else 0
  | _ => 0

/-- The water that a deep cleaning was asked to drain: all that was there. -/
def drained (e : Entry) : Nat :=
  match e.request with
  | .maintain wanted =>
    if wanted.service = .deepCleaning ∧ wanted.drainWater then e.before.stock.water.toNat else 0
  | _ => 0

def isBrew (e : Entry) : Bool :=
  match e.request with
  | .brew .. => true
  | _ => false

def isService (e : Entry) : Bool :=
  match e.request with
  | .maintain _ => true
  | _ => false

/-- A service that sets the count of drinks back. -/
def isReset (e : Entry) : Bool :=
  match e.request with
  | .maintain wanted => wanted.resetStatistics
  | _ => false

end Entry

/-- The requests of a run that were carried out. -/
def Machine.log (m : Machine) : List Request → List Entry
  | [] => []
  | r :: rest =>
    match (r.perform m).result with
    | .ok report => ⟨r, m, report⟩ :: (r.perform m).machine.log rest
    | .error _ => (r.perform m).machine.log rest

/-! ## One entry -/

/-- What an entry does to the levels and the counters. -/
structure Entry.Effect (e : Entry) (after : Machine) : Prop where
  level : ∀ i, (after.stock.level i).toNat + e.consumed i + (if i = .water then e.drained else 0) =
    (e.before.stock.level i).toNat + e.added i
  totalDrinksMade : after.totalDrinksMade.toNat = e.before.totalDrinksMade.toNat + e.isBrew.toNat
  maintenanceCount :
    after.maintenanceCount.toNat = e.before.maintenanceCount.toNat + e.isService.toNat
  drinksMade : after.drinksMade.toNat =
    if e.isReset then 0 else e.before.drinksMade.toNat + e.isBrew.toNat
  waste : after.waste.toNat = if e.isService then 0 else e.before.waste.toNat + 2 * e.isBrew.toNat

theorem Order.Brewed.effect {policy : MilkPolicy} {o : Order} {start : Nat} {m after : Machine}
    (b : o.Brewed start m after) (hwaste : m.waste.toNat < 90) (report : BrewReport) :
    Entry.Effect ⟨.brew policy o start, m, .brewed report⟩ after where
  level i := by
    have := level_of_consume b.consumed i
    simp only [Entry.consumed, Entry.drained, Entry.added]
    split <;> omega
  totalDrinksMade := Count.toNat_of_plus_eq_ok b.totalDrinksMade
  maintenanceCount := congrArg UInt32.toNat b.maintenanceCount
  drinksMade := Count.toNat_of_plus_eq_ok b.drinksMade
  waste := by
    show after.waste.toNat = m.waste.toNat + 2
    rw [b.waste]
    omega

theorem Refill.Filled.effect {r : Refill} {m after : Machine} {report : RefillReport}
    (f : r.Filled report.added m after) (hsame : report.ingredient = r.ingredient) :
    Entry.Effect ⟨.refill r, m, .refilled report⟩ after where
  level i := by
    simp only [Entry.consumed, Entry.drained, Entry.added, hsame]
    by_cases hi : i = r.ingredient
    · subst hi
      rw [f.level, if_pos rfl]
      split <;> rfl
    · rw [f.others i hi, if_neg (Ne.symm hi)]
      split <;> rfl
  totalDrinksMade := congrArg (·.totalDrinksMade.toNat) f.frame
  maintenanceCount := congrArg (·.maintenanceCount.toNat) f.frame
  drinksMade := congrArg (·.drinksMade.toNat) f.frame
  waste := congrArg (·.waste.toNat) f.frame

theorem Maintenance.Serviced.effect {r : Maintenance} {m after : Machine} (s : r.Serviced m after)
    (report : MaintenanceReport) : Entry.Effect ⟨.maintain r, m, .serviced report⟩ after where
  level i := by
    have hdrains : r.drains = decide (r.service = .deepCleaning ∧ r.drainWater = true) := by
      rw [drains, Bool.and_comm, Bool.decide_and, Bool.decide_eq_true]
    simp only [Entry.consumed, Entry.drained, Entry.added, s.stock, hdrains, decide_eq_true_eq]
    by_cases hd : r.service = .deepCleaning ∧ r.drainWater = true
    · rw [if_pos hd, if_pos hd]
      by_cases hi : i = .water
      · subst hi
        rw [Stock.level_setLevel_self]
        simp [Stock.level]
      · rw [Stock.level_setLevel_other _ _ hi, if_neg hi]
    · rw [if_neg hd, if_neg hd]
      split <;> rfl
  totalDrinksMade := congrArg UInt32.toNat s.totalDrinksMade
  maintenanceCount := Count.toNat_of_plus_eq_ok s.maintenanceCount
  drinksMade := by
    show after.drinksMade.toNat = if r.resetStatistics = true then 0 else m.drinksMade.toNat
    rw [s.drinksMade]
    split <;> rfl
  waste := congrArg UInt32.toNat s.waste

/-- **One entry.** A request that was carried out has its effect. -/
theorem Request.effect_of_perform {m : Machine} {r : Request} {report : Report}
    (h : (r.perform m).result = .ok report) :
    Entry.Effect ⟨r, m, report⟩ (r.perform m).machine := by
  cases Request.carriedOut_of_perform h with
  | brewed met effect =>
    obtain ⟨ready, -⟩ := (Order.allMet_iff _ _ m).1 met
    exact effect.effect ready.waste_lt _
  | refilled _ effect same => exact effect.effect same
  | serviced _ effect => exact effect.effect _

/-! ## Counting -/

theorem foldl_count (step : Entry → Nat) (start : Nat) (log : List Entry) :
    log.foldl (fun n e => n + step e) start = start + (log.map step).sum := by
  induction log generalizing start with
  | nil => rfl
  | cons e log ih =>
    rw [List.foldl_cons, ih, List.map_cons, List.sum_cons, Nat.add_assoc]

theorem sum_toNat (p : Entry → Bool) (log : List Entry) :
    (log.map fun e => (p e).toNat).sum = log.countP p := by
  induction log with
  | nil => rfl
  | cons e log ih =>
    rw [List.map_cons, List.sum_cons, ih, List.countP_cons]
    cases p e <;> simp [Nat.add_comm]

/-- Counting up, and setting back to zero at some entries, is counting since the last of these; what
there was at the start counts as long as there was none. -/
theorem foldl_count_since {resets : Entry → Bool} {step : Entry → Nat} (start : Nat)
    (log : List Entry) :
    log.foldl (fun n e => if resets e then 0 else n + step e) start =
      ((log.rtakeWhile fun e => !resets e).map step).sum + if log.any resets then 0 else start := by
  induction log using List.reverseRecOn with
  | nil => simp
  | append_singleton log e ih =>
    rw [List.foldl_append, List.foldl_cons, List.foldl_nil, ih, List.rtakeWhile_concat, List.any_append]
    cases hreset : resets e <;> simp [hreset]
    omega

/-! ## The whole run -/

namespace Machine

/-- What every entry carries on, from the end of the log to its start, holds of a whole run. -/
theorem log_induction {P : Machine → List Entry → Machine → Prop} (hend : ∀ m, P m [] m)
    (hentry : ∀ e after log last, e.Effect after → P after log last → P e.before (e :: log) last)
    {m last : Machine} {requests : List Request}
    (h : m.after (requests.map Action.request) = some last) : P m (m.log requests) last := by
  induction requests generalizing m with
  | nil =>
    cases h
    exact hend _
  | cons r rest ih =>
    have hrest : (r.perform m).machine.after (rest.map Action.request) = some last :=
      after_of_after_cons h
    cases hresult : (r.perform m).result with
    | ok report =>
      simp only [log, hresult]
      exact hentry ⟨r, m, report⟩ _ _ _ (Request.effect_of_perform hresult) (ih hrest)
    | error fault =>
      simp only [log, hresult]
      rw [Request.machine_of_error hresult] at hrest ⊢
      exact ih hrest

theorem foldl_log (counter : Machine → Nat) (step : Nat → Entry → Nat)
    (hstep : ∀ e after, e.Effect after → counter after = step (counter e.before) e)
    {m last : Machine} {requests : List Request}
    (h : m.after (requests.map Action.request) = some last) :
    counter last = (m.log requests).foldl step (counter m) := by
  refine log_induction (P := fun m log last => counter last = log.foldl step (counter m))
    ?_ ?_ h
  · intro m
    rfl
  · intro e after log last heffect ih
    rw [List.foldl_cons, ← hstep e after heffect]
    exact ih

theorem level_log {m last : Machine} {requests : List Request}
    (h : m.after (requests.map Action.request) = some last) (i : Ingredient) :
    let log := m.log requests
    (last.stock.level i).toNat + (log.map (·.consumed i)).sum +
        (if i = .water then (log.map (·.drained)).sum else 0) =
      (m.stock.level i).toNat + (log.map (·.added i)).sum := by
  refine log_induction (P := fun m log last => (last.stock.level i).toNat +
    (log.map (·.consumed i)).sum + (if i = .water then (log.map (·.drained)).sum else 0) =
      (m.stock.level i).toNat + (log.map (·.added i)).sum)
    ?_ ?_ h
  · intro m
    simp
  · intro e after log last heffect ih
    have hlevel := heffect.level i
    simp only [List.map_cons, List.sum_cons]
    by_cases hi : i = .water
    · simp only [if_pos hi] at hlevel ih ⊢
      omega
    · simp only [if_neg hi] at hlevel ih ⊢
      omega

theorem waste_log {m last : Machine} {requests : List Request}
    (h : m.after (requests.map Action.request) = some last) :
    let log := m.log requests
    last.waste.toNat = 2 * (log.rtakeWhile (!·.isService)).countP (·.isBrew) +
      (if log.any (·.isService) then 0 else m.waste.toNat) := by
  have := foldl_log (·.waste.toNat) (fun n e => if e.isService then 0 else n + 2 * e.isBrew.toNat)
    (fun e after heffect => heffect.waste) h
  rwa [foldl_count_since, List.sum_map_mul_left, sum_toNat] at this

/-- **The ledger of a run.** Requests in any order, carried out or refused, as long as no count
overflows: of every ingredient, what is left and what was consumed is what there was and what was
added, but for the water that deep cleanings drained; two counters have grown by the orders brewed
and by the services; and the drinks and the waste count the orders brewed since the last service
that set them back, or since the start. -/
theorem ledger {m last : Machine} {requests : List Request}
    (h : m.after (requests.map Action.request) = some last) :
    let log := m.log requests
    (∀ i, (last.stock.level i).toNat + (log.map (·.consumed i)).sum +
        (if i = .water then (log.map (·.drained)).sum else 0) =
      (m.stock.level i).toNat + (log.map (·.added i)).sum) ∧
    last.totalDrinksMade.toNat = m.totalDrinksMade.toNat + log.countP (·.isBrew) ∧
    last.maintenanceCount.toNat = m.maintenanceCount.toNat + log.countP (·.isService) ∧
    last.drinksMade.toNat = (log.rtakeWhile (!·.isReset)).countP (·.isBrew) +
      (if log.any (·.isReset) then 0 else m.drinksMade.toNat) ∧
    last.waste.toNat = 2 * (log.rtakeWhile (!·.isService)).countP (·.isBrew) +
      (if log.any (·.isService) then 0 else m.waste.toNat) := by
  refine ⟨level_log h, ?_, ?_, ?_, waste_log h⟩
  · have := foldl_log (·.totalDrinksMade.toNat) (fun n e => n + e.isBrew.toNat)
      (fun e after heffect => heffect.totalDrinksMade) h
    rwa [foldl_count, sum_toNat] at this
  · have := foldl_log (·.maintenanceCount.toNat) (fun n e => n + e.isService.toNat)
      (fun e after heffect => heffect.maintenanceCount) h
    rwa [foldl_count, sum_toNat] at this
  · have := foldl_log (·.drinksMade.toNat) (fun n e => if e.isReset then 0 else n + e.isBrew.toNat)
      (fun e after heffect => heffect.drinksMade) h
    rwa [foldl_count_since, sum_toNat] at this

/-- Two lattes with three spoons of sugar, milk filled up again in between, an order that is refused,
and a deep cleaning that drains the water and sets the drinks back. -/
def someDay : List Request :=
  [ .brew .permissive ⟨.latte, 3, true⟩ 0,
    .refill ⟨.milk, .toCapacity⟩,
    .brew .strict ⟨.espresso, 0, true⟩ 0,
    .brew .permissive ⟨.latte, 3, true⟩ 0,
    .maintain ⟨.deepCleaning, true, true⟩ ]

theorem ledger_someDay :
    ∃ last, fresh.after (someDay.map Action.request) = some last ∧
      last.stock.water.toNat + 100 + 900 = 1000 ∧ last.stock.milk.toNat + 200 = 1000 + 100 ∧
      last.totalDrinksMade.toNat = 2 ∧ last.drinksMade.toNat = 0 ∧ last.waste.toNat = 0 := by
  have hends : (fresh.after (someDay.map Action.request)).isSome = true := by decide +kernel
  obtain ⟨last, hlast⟩ := Option.isSome_iff_exists.1 hends
  obtain ⟨hlevel, htotal, -, hdrinks, hwaste⟩ := ledger hlast
  have hwater : ((fresh.log someDay).map (·.consumed .water)).sum = 100 ∧
      ((fresh.log someDay).map (·.drained)).sum = 900 ∧
      ((fresh.log someDay).map (·.added .water)).sum = 0 := by decide +kernel
  have hmilk : ((fresh.log someDay).map (·.consumed .milk)).sum = 200 ∧
      ((fresh.log someDay).map (·.added .milk)).sum = 100 := by decide +kernel
  have hcounts : (fresh.log someDay).countP (·.isBrew) = 2 ∧
      ((fresh.log someDay).rtakeWhile (!·.isReset)).countP (·.isBrew) = 0 ∧
      ((fresh.log someDay).rtakeWhile (!·.isService)).countP (·.isBrew) = 0 ∧
      (fresh.log someDay).any (·.isReset) = true ∧
      (fresh.log someDay).any (·.isService) = true := by decide +kernel
  obtain ⟨hbrews, hsinceReset, hsinceService, hreset, hservice⟩ := hcounts
  have hatWater := hlevel .water
  have hatMilk := hlevel .milk
  rw [hwater.1, hwater.2.1, hwater.2.2, if_pos rfl] at hatWater
  rw [hmilk.1, hmilk.2, if_neg (by decide)] at hatMilk
  rw [hbrews] at htotal
  rw [hsinceReset, hreset, if_pos rfl] at hdrinks
  rw [hsinceService, hservice, if_pos rfl] at hwaste
  exact ⟨last, hlast, hatWater, hatMilk, htotal, hdrinks, hwaste⟩

end Machine

end Barista
