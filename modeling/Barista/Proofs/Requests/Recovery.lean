/-
No dead end.

Brewing and refilling want a machine that is not broken and has room for
waste; a service wants waste to clear. A broken machine without waste would
thus be beyond repair, and `Machine.Repairable` is what keeps a machine from
it: every request leaves it so (`Request.CarriedOut.repairable`), the service
that empties the tank because it repairs as well. From there `Machine.upkeep`,
a service where there is waste and a refill of whatever is not at its capacity,
is carried out from end to end, and any order can be brewed on what it leaves.
-/
import Barista.Proofs.Requests.Preconditions

namespace Barista

/-! ## What requests leave -/

/-- Sound, with no brew in progress, and with waste for a service to clear if it is broken. -/
structure Machine.Repairable (m : Machine) : Prop where
  sound : m.Sound
  idle : m.isBrewing = false
  waste_pos : m.isBroken = true → 0 < m.waste.toNat

theorem Machine.repairable_fresh : fresh.Repairable :=
  ⟨sound_fresh, rfl, fun _ => by decide⟩

/-- **A request leaves a machine that can be repaired.** -/
theorem Request.CarriedOut.repairable {m after : Machine} {r : Request} {report : Report}
    (h : m.Repairable) (done : r.CarriedOut m after report) : after.Repairable := by
  refine ⟨done.sound h.sound, done.not_brewing h.idle, fun hbroken => ?_⟩
  cases done with
  | brewed _ effect =>
    -- Whatever the wear has become, the drink left waste of its own.
    rw [effect.waste]
    omega
  | refilled _ effect _ =>
    rw [effect.frame] at hbroken ⊢
    exact h.waste_pos hbroken
  | serviced _ effect =>
    obtain ⟨-, -, -, hrepaired⟩ := effect.sound h.sound
    rw [hrepaired] at hbroken
    cases hbroken

theorem Machine.repairable_of_after {m last : Machine} {requests : List Request}
    (h : m.after (requests.map Action.request) = some last) (hstart : m.Repairable) :
    last.Repairable :=
  after_induction (fun _ _ _ _ => Request.CarriedOut.repairable) h hstart

/-! ## What can be carried out -/

section

variable {m : Machine}

theorem Order.perform_of_ready {policy : MilkPolicy} {o : Order} (ready : m.Ready)
    (hstock : ∀ i, o.takes i ≤ (m.stock.level i).toNat) (hcompatible : o.Compatible policy)
    (hmade : m.drinksMade.toNat < 4294967295) (htotal : m.totalDrinksMade.toNat < 4294967295)
    (start : Nat) : ∃ report after, (Request.brew policy o start).perform m = .done report after := by
  have hmet := (o.allMet_iff policy m).2 ⟨ready, hstock, hcompatible⟩
  obtain ⟨report, after, hdone, -⟩ := carryOut_kept hmet hmade htotal start
  refine ⟨.brewed report, after, ?_⟩
  rw [Request.perform, brew, Attempt.guarded_eq_done hmet hdone]
  rfl

theorem Refill.perform_toCapacity (ready : m.Ready) {i : Ingredient}
    (hroom : (m.stock.level i).toNat < i.capacity.toNat) :
    ∃ report stock, (Request.refill ⟨i, .toCapacity⟩).perform m = .done report { m with stock } ∧
      stock.level i = i.capacity ∧ ∀ j, j ≠ i → stock.level j = m.stock.level j := by
  have hmet := (allMet_iff ⟨i, .toCapacity⟩ m).2 ⟨ready, hroom⟩
  obtain ⟨report, after, hdone, -, f⟩ := carryOut_kept hmet
  refine ⟨.refilled report, after.stock, ?_, ?_, f.others⟩
  · rw [Request.perform, perform, Attempt.guarded_eq_done hmet hdone, ← f.frame]
    rfl
  · have hadded := Count.toNat_of_minus_eq_ok (added_of_carryOut hdone)
    have hlevel := f.level
    apply UInt32.toNat_inj.1
    dsimp only at hadded hlevel
    omega

theorem Maintenance.perform_of_waste (sound : m.Sound) (hidle : m.isBrewing = false)
    (hwaste : 0 < m.waste.toNat) (hcount : m.maintenanceCount.toNat < 4294967295)
    (r : Maintenance) :
    ∃ report after, (Request.maintain r).perform m = .done report after ∧ r.Serviced m after := by
  have hmet := (allMet_iff m).2 ⟨hidle, hwaste⟩
  obtain ⟨report, after, hdone, -⟩ := carryOut_sound sound hcount r
  refine ⟨.serviced report, after, ?_, serviced_of_carryOut hdone⟩
  rw [Request.perform, perform, Attempt.guarded_eq_done hmet hdone]
  rfl

end

/-! ## Upkeep -/

/-- A service or a refill. -/
def Request.isUpkeep : Request → Bool
  | .brew .. => false
  | .refill _ | .maintain _ => true

namespace Machine

/-- The machine after requests that all succeed. -/
def afterAll (m : Machine) (requests : List Request) : Option Machine :=
  requests.foldlM (fun m r => if (r.perform m).succeeded then some (r.perform m).machine else none) m

def service (m : Machine) : List Request :=
  if 0 < m.waste.toNat then [.maintain ⟨.cleaning, false, false⟩] else []

def restock (m : Machine) : List Request :=
  (Ingredient.all.filter fun i => (m.stock.level i).toNat < i.capacity.toNat).map
    fun i => .refill ⟨i, .toCapacity⟩

/-- All that a machine needs before it can brew whatever it is asked for. -/
def upkeep (m : Machine) : List Request := m.service ++ m.restock

theorem isUpkeep_of_mem_upkeep {m : Machine} {r : Request} (h : r ∈ m.upkeep) :
    r.isUpkeep = true := by
  rcases List.mem_append.1 h with h | h
  · rw [service] at h
    split at h
    · rw [List.mem_singleton.1 h]
      rfl
    · cases h
  · obtain ⟨i, -, rfl⟩ := List.mem_map.1 h
    rfl

theorem afterAll_cons_of_done {m after : Machine} {r : Request} {report : Report}
    (h : r.perform m = .done report after) (rest : List Request) :
    m.afterAll (r :: rest) = after.afterAll rest := by
  rw [afterAll, List.foldlM_cons, h]
  rfl

theorem Ready.restocked {m : Machine} (ready : m.Ready) (stock : Stock) : Ready { m with stock } :=
  ⟨ready.not_broken, ready.not_brewing, ready.waste_lt⟩

/-- Ingredients refilled one after another are all at their capacities in the end. -/
theorem afterAll_refills {m : Machine} (ready : m.Ready) {wanted : List Ingredient}
    (hdistinct : wanted.Nodup)
    (hroom : ∀ i ∈ wanted, (m.stock.level i).toNat < i.capacity.toNat) :
    ∃ stock, m.afterAll (wanted.map fun i => .refill ⟨i, .toCapacity⟩) = some { m with stock } ∧
      ∀ i, stock.level i = if i ∈ wanted then i.capacity else m.stock.level i := by
  induction wanted generalizing m with
  | nil => exact ⟨m.stock, rfl, fun i => rfl⟩
  | cons i wanted ih =>
    obtain ⟨hnew, hdistinct⟩ := List.nodup_cons.1 hdistinct
    obtain ⟨report, stock, hdone, hfull, hothers⟩ :=
      Refill.perform_toCapacity ready (hroom i List.mem_cons_self)
    -- None of the others is this one, so they have as much room as before.
    have hrest : ∀ j ∈ wanted, (stock.level j).toNat < j.capacity.toNat := by
      intro j hj
      rw [hothers j fun heq => hnew (heq ▸ hj)]
      exact hroom j (List.mem_cons_of_mem i hj)
    obtain ⟨last, hlast, hlevels⟩ := ih (ready.restocked stock) hdistinct hrest
    refine ⟨last, ?_, fun j => ?_⟩
    · rw [List.map_cons, afterAll_cons_of_done hdone, hlast]
    · rw [hlevels]
      by_cases hj : j = i
      · subst hj
        simp [hnew, hfull]
      · simp [hj, hothers j hj]

theorem afterAll_restock {m : Machine} (ready : m.Ready) :
    ∃ stock, m.afterAll m.restock = some { m with stock } ∧
      ∀ i, i.capacity.toNat ≤ (stock.level i).toNat := by
  have hdistinct : Ingredient.all.Nodup := by decide
  obtain ⟨stock, hlast, hlevels⟩ := afterAll_refills ready (hdistinct.filter _)
    fun i hi => of_decide_eq_true (List.mem_filter.1 hi).2
  refine ⟨stock, hlast, fun i => ?_⟩
  rw [hlevels]
  split
  · exact Nat.le_refl _
  · next hfull =>
    simpa [Ingredient.mem_all] using hfull

theorem afterAll_service {m : Machine} (h : m.Repairable)
    (hcount : m.maintenanceCount.toNat < 4294967295) :
    ∃ serviced, m.afterAll m.service = some serviced ∧ serviced.Ready ∧
      serviced.stock = m.stock ∧ serviced.drinksMade = m.drinksMade ∧
      serviced.totalDrinksMade = m.totalDrinksMade := by
  unfold service
  split
  · next hwaste =>
    obtain ⟨report, after, hdone, s⟩ :=
      Maintenance.perform_of_waste h.sound h.idle hwaste hcount ⟨.cleaning, false, false⟩
    obtain ⟨-, -, -, hrepaired⟩ := s.sound h.sound
    have hidle : after.isBrewing = false := (congrArg (·.running) s.timer).trans h.idle
    have hready : after.Ready := ⟨hrepaired, hidle, by rw [s.waste]; decide⟩
    exact ⟨after, afterAll_cons_of_done hdone [], hready, s.stock, s.drinksMade, s.totalDrinksMade⟩
  · next hclean =>
    have hwhole : m.isBroken = false := by
      cases hbroken : m.isBroken with
      | false => rfl
      | true => exact absurd (h.waste_pos hbroken) hclean
    exact ⟨m, rfl, ⟨hwhole, h.idle, by omega⟩, rfl, rfl, rfl⟩

/-- **Upkeep succeeds, and makes the machine ready with everything at its capacity.** -/
theorem afterAll_upkeep {m : Machine} (h : m.Repairable)
    (hcount : m.maintenanceCount.toNat < 4294967295) :
    ∃ last, m.afterAll m.upkeep = some last ∧ last.Ready ∧
      (∀ i, i.capacity.toNat ≤ (last.stock.level i).toNat) ∧ last.drinksMade = m.drinksMade ∧
      last.totalDrinksMade = m.totalDrinksMade := by
  obtain ⟨serviced, hserviced, ready, hstock, hmade, htotal⟩ := afterAll_service h hcount
  obtain ⟨stock, hlast, hlevels⟩ := afterAll_restock ready
  have hrestock : serviced.restock = m.restock := by rw [restock, restock, hstock]
  refine ⟨{ serviced with stock }, ?_, ready.restocked stock, hlevels, hmade, htotal⟩
  rw [hrestock] at hlast
  rw [afterAll] at hserviced hlast ⊢
  rw [upkeep, List.foldlM_append, hserviced]
  exact hlast

end Machine

theorem Order.takes_le_capacity {o : Order} (hsugar : o.sugar.toNat ≤ 200) (i : Ingredient) :
    o.takes i ≤ i.capacity.toNat := by
  have hrecipe : o.drink.recipe.water ≤ 150 ∧ o.drink.recipe.coffee ≤ 15 ∧
      o.drink.recipe.milk ≤ 100 := by
    cases o.drink <;> decide
  simp only [UInt32.le_iff_toNat_le] at hrecipe
  obtain ⟨hwater, hcoffee, hmilk⟩ := hrecipe
  cases i with
  | water => exact Nat.le_trans hwater (by decide)
  | coffee => exact Nat.le_trans hcoffee (by decide)
  | milk =>
    rw [takes]
    split
    · exact Nat.le_trans hmilk (by decide)
    · exact Nat.zero_le _
  | cups => exact show 1 ≤ Ingredient.cups.capacity.toNat by decide
  | sugar => exact hsugar

namespace Machine

/-- **There is no dead end.** After any run of requests from delivery, as long as the counters have
room for one more, every order with at most 200 of sugar that the policy lets pass can be brewed
after services and refills that all succeed. A broken machine in particular has waste and no brew in
progress, and every service is carried out and repairs it. -/
theorem no_dead_end {requests : List Request} {m : Machine}
    (h : fresh.after (requests.map Action.request) = some m)
    (hmade : m.drinksMade.toNat < 4294967295) (htotal : m.totalDrinksMade.toNat < 4294967295)
    (hcount : m.maintenanceCount.toNat < 4294967295) :
    (∀ (policy : MilkPolicy) (o : Order) (start : Nat), o.sugar.toNat ≤ 200 → o.Compatible policy →
      ∃ plan last, (∀ r ∈ plan, r.isUpkeep = true) ∧ m.afterAll plan = some last ∧
        ((Request.brew policy o start).perform last).succeeded = true) ∧
    (m.isBroken = true → 0 < m.waste.toNat ∧ m.isBrewing = false ∧
      ∀ r : Maintenance, ((Request.maintain r).perform m).succeeded = true ∧
        ((Request.maintain r).perform m).machine.isBroken = false) := by
  have hrepairable := repairable_of_after h repairable_fresh
  constructor
  · intro policy o start hsugar hcompatible
    obtain ⟨last, hlast, ready, hlevels, hmade', htotal'⟩ := afterAll_upkeep hrepairable hcount
    obtain ⟨report, after, hdone⟩ := Order.perform_of_ready ready
      (fun i => Nat.le_trans (o.takes_le_capacity hsugar i) (hlevels i)) hcompatible
      (hmade' ▸ hmade) (htotal' ▸ htotal) start
    refine ⟨m.upkeep, last, fun r => isUpkeep_of_mem_upkeep, hlast, ?_⟩
    rw [hdone]
    rfl
  · intro hbroken
    have hwaste := hrepairable.waste_pos hbroken
    refine ⟨hwaste, hrepairable.idle, fun r => ?_⟩
    obtain ⟨report, after, hdone, s⟩ :=
      Maintenance.perform_of_waste hrepairable.sound hrepairable.idle hwaste hcount r
    obtain ⟨-, -, -, hrepaired⟩ := s.sound hrepairable.sound
    rw [hdone]
    exact ⟨rfl, hrepaired⟩

/-- Five lattes with all the sugar there is, which break the machine. -/
def sweetDay : List Request :=
  let latte := Request.brew .permissive ⟨.latte, 200, true⟩ 0
  let sugar := Request.refill ⟨.sugar, .toCapacity⟩
  [latte, sugar, latte, sugar, latte, sugar, latte, sugar, latte]

theorem no_dead_end_sweetDay :
    ∃ m, fresh.after (sweetDay.map Action.request) = some m ∧ m.isBroken = true ∧
      (∃ plan last, (∀ r ∈ plan, r.isUpkeep = true) ∧ m.afterAll plan = some last ∧
        ((Request.brew .strict ⟨.espresso, 3, false⟩ 0).perform last).succeeded = true) ∧
      ((Request.maintain ⟨.diagnostic, false, false⟩).perform m).machine.isBroken = false := by
  have hend : (fresh.after (sweetDay.map Action.request)).any (fun m => m.isBroken &&
      m.drinksMade = 5 && m.totalDrinksMade = 5 && m.maintenanceCount = 0) = true := by
    decide +kernel
  obtain ⟨m, hm, hlast⟩ := (Option.any_eq_true _ _).1 hend
  simp only [Bool.and_eq_true, decide_eq_true_eq] at hlast
  obtain ⟨⟨⟨hbroken, hmade⟩, htotal⟩, hcount⟩ := hlast
  obtain ⟨hbrews, hrepairs⟩ := no_dead_end hm (by rw [hmade]; decide) (by rw [htotal]; decide)
    (by rw [hcount]; decide)
  obtain ⟨-, -, hservice⟩ := hrepairs hbroken
  refine ⟨m, hm, hbroken, ?_, (hservice ⟨.diagnostic, false, false⟩).2⟩
  exact hbrews .strict ⟨.espresso, 3, false⟩ 0 (by decide) (by simp [Order.Compatible])

end Machine

end Barista
