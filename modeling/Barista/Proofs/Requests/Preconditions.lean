/-
Preconditions are what the postconditions need.

`Request.requirements` says what an operation requires in terms of stock,
counts and wear. The conditions that an operation reports are these, in this
order and under distinct names (`Request.entries_preconditions`), so a refusal
names every one that is violated. Meeting them is enough for a sound machine:
every postcondition holds and the machine is sound again, for each operation
(`Order.carryOut_sound`, `Refill.carryOut_sound`, `Maintenance.carryOut_sound`).
Whatever is carried out, the timer is left as it was or ended
(`Request.CarriedOut.timer`).
-/
import Barista.Proofs.Requests.Conditions

namespace Barista

open Binary64

/-! ## What an operation requires -/

namespace Machine

/-- What every operation but maintenance requires. -/
def operationalRequirements (m : Machine) : List (String × Bool) :=
  [ ("machine not broken", m.wear < 100),
    ("machine not brewing", !m.timer.running),
    ("waste level not critical", m.waste.toNat < 90) ]

theorem operational_eq {m : Machine} (sound : m.Sound) :
    m.operational = m.operationalRequirements := by
  have hwear : (!m.isBroken) = decide (m.wear < 100) := by
    have b := sound.wear_between
    rw [isBroken, ← decide_not, decide_eq_decide, lt_iff_units b.finite b.high_finite,
      le_iff_units b.high_finite b.finite]
    exact Int.not_le
  rw [operational, operationalRequirements, hwear]
  rfl

end Machine

namespace Request

def operation : Request → Operation
  | .brew .. => .brew
  | .refill _ => .refill
  | .maintain _ => .maintenance

/-- The conditions that the operation looks at. -/
def preconditions (m : Machine) : Request → Conditions
  | .brew policy order _ => order.preconditions policy m
  | .refill wanted => wanted.preconditions m
  | .maintain _ => Maintenance.preconditions m

/-- What the operation requires, by name, in the order of the report. -/
def requirements (m : Machine) : Request → List (String × Bool)
  | .brew policy order _ =>
    let has (i : Ingredient) : Bool := order.takes i ≤ (m.stock.level i).toNat
    m.operationalRequirements ++
      [ ("enough water", has .water), ("enough coffee", has .coffee), ("enough milk", has .milk),
        ("cups available", has .cups), ("enough sugar", has .sugar) ] ++
      match policy with
      | .permissive => []
      | .strict => [("milk compatible with drink", !(order.milk && order.drink.isBlack))]
  | .refill wanted =>
    let level := (m.stock.level wanted.ingredient).toNat
    let capacity := wanted.ingredient.capacity.toNat
    let room : List (String × Bool) := match wanted.amount with
      | .exact amount =>
        [("amount positive", 0 < amount.toNat), ("within capacity", amount.toNat ≤ capacity - level)]
      | .toCapacity => [("capacity available", level < capacity)]
    m.operationalRequirements ++ room
  | .maintain _ => [("machine not brewing", !m.timer.running), ("waste present", 0 < m.waste.toNat)]

/-- The names of the requirements that are violated. -/
def violated (m : Machine) (r : Request) : List String :=
  ((r.requirements m).filter fun entry => !entry.2).map (·.1)

/-- What the operation promises to have done. -/
def promises : Request → List String
  | .brew .. => ["drink made", "resources consumed", "drink counter increased", "waste increased"]
  | .refill _ => ["amount added", "within capacity"]
  | .maintain _ =>
    [ "waste cleaned", "temperature reset", "maintenance count increased", "water drained",
      "wear reduced", "health maintained", "machine not broken" ]

end Request

def Report.postconditions : Report → Conditions
  | .brewed report => report.postconditions
  | .refilled report => report.postconditions
  | .serviced report => report.postconditions

/-- What a request that succeeds comes to: every promise is reported, and kept, and the machine is
sound. -/
structure Request.Fulfilled (r : Request) (report : Report) (after : Machine) : Prop where
  names : report.postconditions.names = r.promises
  kept : report.postconditions.allMet = true
  sound : after.Sound

/-! ## The conditions reported are the requirements -/

theorem Order.entries_preconditions {m : Machine} (sound : m.Sound) (policy : MilkPolicy) (o : Order)
    (start : Nat) :
    (o.preconditions policy m).entries = (Request.brew policy o start).requirements m := by
  rw [entries_eq, Machine.operational_eq sound]
  cases policy <;> rfl

theorem Refill.entries_preconditions {m : Machine} (sound : m.Sound) (r : Refill) :
    (r.preconditions m).entries = (Request.refill r).requirements m := by
  have havailable : (r.available m).toNat =
      r.ingredient.capacity.toNat - (m.stock.level r.ingredient).toNat :=
    Count.toNat_minusFloored _ _
  rw [preconditions, Machine.operational_eq sound, Request.requirements]
  cases r.amount with
  | exact amount =>
    rw [Conditions.entries_ofList (by simp [Machine.operationalRequirements])]
    simp only [UInt32.le_iff_toNat_le, UInt32.lt_iff_toNat_lt, havailable]
    rfl
  | toCapacity =>
    rw [Conditions.entries_ofList (by simp [Machine.operationalRequirements])]
    simp only [UInt32.lt_iff_toNat_lt, havailable, UInt32.toNat_zero, Nat.sub_pos_iff_lt]

theorem Maintenance.entries_preconditions (r : Maintenance) (m : Machine) :
    (preconditions m).entries = (Request.maintain r).requirements m := by
  rw [preconditions, Conditions.entries_ofList (by simp)]
  simp only [UInt32.lt_iff_toNat_lt]
  rfl

/-- **The conditions that an operation looks at are its requirements**, none of them under the name
of another. -/
theorem Request.entries_preconditions {m : Machine} (sound : m.Sound) (r : Request) :
    (r.preconditions m).entries = r.requirements m := by
  cases r with
  | brew policy order start => exact order.entries_preconditions sound policy start
  | refill wanted => exact wanted.entries_preconditions sound
  | maintain wanted => exact wanted.entries_preconditions m

/-- A report in which every promise is kept. -/
def Request.kept (r : Request) : Conditions := .ofList (r.promises.map (·, true))

theorem Request.kept_spec (r : Request) : r.kept.names = r.promises ∧ r.kept.allMet = true := by
  have hdistinct : r.promises.Nodup := by cases r <;> simp [promises]
  have hentries : r.kept.entries = r.promises.map (·, true) := by
    refine Conditions.entries_ofList ?_
    rwa [List.map_map, show ((·.1) ∘ fun name => (name, true)) = (id : String → String) from rfl,
      List.map_id]
  rw [Conditions.names, Conditions.allMet, hentries]
  simp [Function.comp_def]

/-! ## Meeting the requirements is enough -/

theorem Order.Brewed.sound {m after : Machine} {o : Order} {start : Nat} (sound : m.Sound)
    (b : o.Brewed start m after) : after.Sound := by
  have hwear := Machine.increased_between sound.wear_between (.inr o.wear_between.low)
  rw [← b.wear] at hwear
  refine ⟨?_, hwear.low, hwear.high, ?_⟩
  · rw [b.waste]
    omega
  · rw [b.health]
    exact Machine.healthAt_eq hwear

/-- An order whose conditions are met is brewed, and keeps what it promises. -/
theorem Order.carryOut_kept {policy : MilkPolicy} {o : Order} {m : Machine}
    (hmet : (o.preconditions policy m).allMet = true)
    (hmade : m.drinksMade.toNat < 4294967295) (htotal : m.totalDrinksMade.toNat < 4294967295)
    (start : Nat) :
    ∃ report after, o.carryOut start m = .ok (report, after) ∧
      report.postconditions = (Request.brew policy o start).kept ∧ o.Brewed start m after := by
  obtain ⟨ready, hstock, -⟩ := (o.allMet_iff policy m).1 hmet
  have hwaste := ready.waste_lt
  have hwear := Machine.wear_le_of_not_broken ready.not_broken
  obtain ⟨after, hafter⟩ := exists_perform hstock hmade htotal
  have b := brewed_of_perform hafter
  -- What is looked at afterwards: the timer, the stock, the count and the waste.
  have htimer := b.timer.trans (Machine.run_brewTime hwear o.drink o.sugar start)
  have htime := (Machine.brewTime_between hwear o.drink o.sugar).finite
  have hdone : (!after.isBrewing && decide (m.brewTime o.drink o.sugar ≤ after.timer.elapsed)) =
      true := by
    rw [Machine.isBrewing, htimer]
    exact decide_eq_true (Binary64.le_refl htime)
  have hmore : m.waste < after.waste := by
    rw [UInt32.lt_iff_toNat_lt, b.waste]
    omega
  have hpost : o.postconditions m after = .ok (Request.brew policy o start).kept := by
    simp only [postconditions, b.consumed, b.drinksMade, bind, Except.bind, hdone, hmore, decide_true]
    rfl
  refine ⟨⟨o, m.brewTime o.drink o.sugar, o.wear, _⟩, after, ?_, rfl, b⟩
  simp only [carryOut, hafter, hpost, bind, Except.bind]
  rfl

theorem Order.brew_start (policy : MilkPolicy) (o : Order) (m : Machine) (start start' : Nat) :
    o.brew policy start m = o.brew policy start' m := by
  by_cases hmet : (o.preconditions policy m).allMet = true
  · obtain ⟨ready, -⟩ := (o.allMet_iff policy m).1 hmet
    have hwear := Machine.wear_le_of_not_broken ready.not_broken
    have hperform : o.perform start m = o.perform start' m := by
      simp only [Order.perform, Machine.run_brewTime hwear]
    rw [Order.brew, Order.brew, Order.carryOut, Order.carryOut, hperform]
  · rw [Order.brew, Order.brew, Attempt.guarded_eq_refused hmet, Attempt.guarded_eq_refused hmet]

theorem Order.carryOut_sound {m : Machine} (sound : m.Sound)
    (hmade : m.drinksMade.toNat < 4294967295) (htotal : m.totalDrinksMade.toNat < 4294967295)
    {policy : MilkPolicy} {o : Order} {start : Nat}
    (hmet : (o.preconditions policy m).allMet = true) :
    ∃ report after, o.carryOut start m = .ok (report, after) ∧
      (Request.brew policy o start).Fulfilled (.brewed report) after := by
  obtain ⟨report, after, hdone, hpost, b⟩ := carryOut_kept hmet hmade htotal start
  obtain ⟨hnames, hkept⟩ := (Request.brew policy o start).kept_spec
  rw [← hpost] at hnames hkept
  exact ⟨report, after, hdone, hnames, hkept, b.sound sound⟩

theorem Refill.Filled.sound {m after : Machine} {r : Refill} {added : Count} (sound : m.Sound)
    (f : r.Filled added m after) : after.Sound := by
  rw [f.frame]
  exact ⟨sound.waste_le, sound.wear_nonneg, sound.wear_le, sound.health_eq⟩

theorem Refill.exists_added {r : Refill} {m : Machine} (hfits : r.Fits m) :
    ∃ added, r.added m = .ok added ∧
      (m.stock.level r.ingredient).toNat + added.toNat ≤ r.ingredient.capacity.toNat := by
  rw [Fits] at hfits
  cases hamount : r.amount with
  | exact amount =>
    rw [hamount] at hfits
    refine ⟨amount, ?_, hfits.2⟩
    rw [Refill.added, hamount]
  | toCapacity =>
    rw [hamount] at hfits
    obtain ⟨added, hadded⟩ := Count.exists_minus (Nat.le_of_lt hfits)
    have := Count.toNat_of_minus_eq_ok hadded
    refine ⟨added, ?_, by omega⟩
    rw [Refill.added, hamount]
    exact hadded

theorem Refill.carryOut_kept {r : Refill} {m : Machine} (hmet : (r.preconditions m).allMet = true) :
    ∃ report after, r.carryOut m = .ok (report, after) ∧
      report.postconditions = (Request.refill r).kept ∧ r.Filled report.added m after := by
  obtain ⟨-, hfits⟩ := (r.allMet_iff m).1 hmet
  obtain ⟨added, hadded, hroom⟩ := exists_added hfits
  have hsmall := r.ingredient.capacity.toNat_lt
  obtain ⟨level, hlevel⟩ := Count.exists_plus (a := m.stock.level r.ingredient) (b := added)
    (by rw [show UInt32.size = 4294967296 from rfl]; omega)
  have hin : level ≤ r.ingredient.capacity := by
    rw [UInt32.le_iff_toNat_le, Count.toNat_of_plus_eq_ok hlevel]
    exact hroom
  have hpost : r.postconditions (m.stock.level r.ingredient) added level =
      .ok (Request.refill r).kept := by
    simp only [postconditions, hlevel, bind, Except.bind, hin, decide_true]
    rfl
  have hdone : r.carryOut m = .ok
      (⟨r.ingredient, m.stock.level r.ingredient, level, added, (Request.refill r).kept⟩,
        { m with stock := m.stock.setLevel r.ingredient level }) := by
    simp only [carryOut, hadded, hlevel, hpost, bind, Except.bind]
    rfl
  exact ⟨_, _, hdone, rfl, (filled_of_carryOut hdone).1⟩

theorem Refill.carryOut_sound {m : Machine} (sound : m.Sound) {r : Refill}
    (hmet : (r.preconditions m).allMet = true) :
    ∃ report after, r.carryOut m = .ok (report, after) ∧
      (Request.refill r).Fulfilled (.refilled report) after := by
  obtain ⟨report, after, hdone, hpost, f⟩ := carryOut_kept hmet
  obtain ⟨hnames, hkept⟩ := (Request.refill r).kept_spec
  rw [← hpost] at hnames hkept
  exact ⟨report, after, hdone, hnames, hkept, f.sound sound⟩

theorem Maintenance.Serviced.sound {m after : Machine} {r : Maintenance} (sound : m.Sound)
    (s : r.Serviced m after) :
    after.Sound ∧ after.wear ≤ m.wear ∧ m.health ≤ after.health ∧ after.isBroken = false := by
  obtain ⟨hwear, hless⟩ := Machine.reduced_between sound.wear_between r.service
  rw [← s.wear] at hwear hless
  have hpercent : Between 0 100 after.wear := hwear.weaken (by decide +kernel)
  have hhealth : (after.health.toNat : ℤ) = 100 - ⌊after.wear.value⌋ := by
    rw [s.health]
    exact Machine.healthAt_eq hpercent
  refine ⟨⟨?_, hpercent.low, hpercent.high, hhealth⟩, hless, ?_,
    Machine.not_broken_of_wear_le hwear.high⟩
  · rw [s.waste]
    decide
  · have := Machine.floor_mono hpercent.finite sound.wear_between.finite hless
    have := sound.health_eq
    rw [UInt32.le_iff_toNat_le]
    omega

theorem Maintenance.carryOut_sound {m : Machine} (sound : m.Sound)
    (hcount : m.maintenanceCount.toNat < 4294967295) (r : Maintenance) :
    ∃ report after, r.carryOut m = .ok (report, after) ∧
      (Request.maintain r).Fulfilled (.serviced report) after := by
  obtain ⟨after, hafter⟩ := exists_serviced (r := r) hcount
  have s := serviced_spec hafter
  obtain ⟨hsound, hless, hhealth, hbroken⟩ := s.sound sound
  have hcool : after.temperature ≤ coolTemperature := by
    rw [s.temperature]
    decide +kernel
  have hdrained : (!r.drains || decide (after.stock.water = 0)) = true := by
    rw [s.stock]
    cases r.drains <;> rfl
  have hpost : r.postconditions m after = .ok (Request.maintain r).kept := by
    simp only [postconditions, s.maintenanceCount, s.waste, hcool, hdrained, hless, hhealth, hbroken,
      bind, Except.bind, decide_true, Bool.not_false]
    rfl
  obtain ⟨hnames, hkept⟩ := (Request.maintain r).kept_spec
  refine ⟨⟨r, m.wear, after.wear, _⟩, after, ?_, hnames, hkept, hsound⟩
  simp only [carryOut, hafter, hpost, bind, Except.bind]
  rfl

/-! ## Every request -/

namespace Request

section

variable {m after : Machine} {r : Request} {report : Report}

theorem CarriedOut.sound (done : r.CarriedOut m after report) (sound : m.Sound) : after.Sound := by
  cases done with
  | brewed _ effect => exact effect.sound sound
  | refilled _ effect _ => exact effect.sound sound
  | serviced _ effect => exact (effect.sound sound).1

theorem CarriedOut.timer (done : r.CarriedOut m after report) :
    after.timer = m.timer ∨ ∃ time, after.timer = ⟨false, time, time, none⟩ := by
  cases done with
  | brewed met effect =>
    obtain ⟨ready, -⟩ := (Order.allMet_iff _ _ m).1 met
    have hwear := Machine.wear_le_of_not_broken ready.not_broken
    exact .inr ⟨_, effect.timer.trans (Machine.run_brewTime hwear _ _ _)⟩
  | refilled _ effect _ =>
    rw [effect.frame]
    exact .inl rfl
  | serviced _ effect => exact .inl effect.timer

theorem CarriedOut.not_brewing (done : r.CarriedOut m after report) (h : m.isBrewing = false) :
    after.isBrewing = false := by
  rcases done.timer with hsame | ⟨time, hended⟩
  · rw [Machine.isBrewing, hsame]
    exact h
  · rw [Machine.isBrewing, hended]

end

theorem perform_eq_refused {m : Machine} {r : Request}
    (hunmet : ¬ (r.preconditions m).allMet = true) :
    r.perform m =
      .refused (.preconditionsFailed r.operation (r.preconditions m).failed) m := by
  cases r with
  | brew policy order start =>
    exact congrArg (Attempt.map Report.brewed) (Attempt.guarded_eq_refused hunmet)
  | refill wanted =>
    exact congrArg (Attempt.map Report.refilled) (Attempt.guarded_eq_refused hunmet)
  | maintain wanted =>
    exact congrArg (Attempt.map Report.serviced) (Attempt.guarded_eq_refused hunmet)

theorem failed_preconditions {m : Machine} (sound : m.Sound) (r : Request) :
    (r.preconditions m).failed = r.violated m := by
  rw [Conditions.failed, r.entries_preconditions sound, violated]

/-- **An operation succeeds exactly if the conditions it reports are met.** They are its
requirements; if they are met, every promise is kept and the machine is sound again; and if not,
the refusal names every requirement that is violated, in the order of the report, and the machine
is as it was. -/
theorem perform_exact {m : Machine} (sound : m.Sound) (hmade : m.drinksMade.toNat < 4294967295)
    (htotal : m.totalDrinksMade.toNat < 4294967295)
    (hcount : m.maintenanceCount.toNat < 4294967295) (r : Request) :
    (r.preconditions m).entries = r.requirements m ∧
      ((r.perform m).succeeded = true ↔ (r.preconditions m).allMet = true) ∧
      (∀ report, (r.perform m).result = .ok report → r.Fulfilled report (r.perform m).machine) ∧
      ∀ fault, (r.perform m).result = .error fault →
        fault = .preconditionsFailed r.operation (r.violated m) ∧ r.violated m ≠ [] ∧
          (r.perform m).machine = m := by
  refine ⟨r.entries_preconditions sound, ?_⟩
  rw [← r.failed_preconditions sound]
  cases r with
  | brew policy order start =>
    exact Attempt.map_guarded_exact fun hmet =>
      Order.carryOut_sound sound hmade htotal hmet
  | refill wanted => exact Attempt.map_guarded_exact fun hmet => Refill.carryOut_sound sound hmet
  | maintain wanted =>
    exact Attempt.map_guarded_exact fun _ => Maintenance.carryOut_sound sound hcount wanted

/-- A delivered machine makes a latte, and refuses an espresso with milk under the strict policy,
naming that alone. -/
theorem perform_exact_fresh :
    ((brew .permissive ⟨.latte, 3, true⟩ 0).perform .fresh).succeeded = true ∧
      ((brew .strict ⟨.espresso, 0, true⟩ 0).perform .fresh).result =
        .error (.preconditionsFailed .brew ["milk compatible with drink"]) := by
  obtain ⟨-, hmakes, -⟩ := perform_exact Machine.sound_fresh (by decide) (by decide) (by decide)
    (brew .permissive ⟨.latte, 3, true⟩ 0)
  obtain ⟨-, hrefuses, -, hnames⟩ := perform_exact Machine.sound_fresh (by decide) (by decide)
    (by decide) (brew .strict ⟨.espresso, 0, true⟩ 0)
  refine ⟨hmakes.2 (by decide +kernel), ?_⟩
  cases hresult : ((brew .strict ⟨.espresso, 0, true⟩ 0).perform .fresh).result with
  | ok report =>
    have : ((brew .strict ⟨.espresso, 0, true⟩ 0).perform .fresh).succeeded = true := by
      rw [Attempt.succeeded, hresult]
      rfl
    exact absurd (hrefuses.1 this) (by decide +kernel)
  | error fault =>
    rw [(hnames fault hresult).1]
    decide +kernel

end Request

end Barista
