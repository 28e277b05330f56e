/-
Refills add up.

A refill succeeds exactly if the machine is ready and the amount fits
(`Refill.succeeded_iff`), and then nothing but its level has moved, by what the
report gives (`Refill.accounted_of_perform`). So one refill comes to the same as
two that share its amount, and a refill up to the capacity to one by what is
missing. A tank that is full, or fuller, takes no more, and stays so whatever is
refilled besides (`Refill.capacity_le_performAll`).
-/
import Barista.Proofs.Requests.Independence
import Barista.Proofs.Requests.Recovery

namespace Barista.Refill

variable {r : Refill} {m after : Machine} {i : Ingredient} {report : RefillReport}
  {a b amount : Count}

/-! ## What a refill comes to -/

theorem succeeded_iff (r : Refill) (m : Machine) :
    (r.perform m).succeeded = true ↔ m.Ready ∧ r.Fits m := by
  rw [← allMet_iff]
  by_cases hmet : (r.preconditions m).allMet = true
  · obtain ⟨report, after, hdone, -⟩ := carryOut_kept hmet
    rw [perform, Attempt.guarded_eq_done hmet hdone]
    exact iff_of_true rfl hmet
  · rw [perform, Attempt.guarded_eq_refused hmet]
    exact iff_of_false Bool.false_ne_true hmet

theorem succeeded_exact_iff (hpos : 0 < amount) :
    (perform ⟨i, .exact amount⟩ m).succeeded = true ↔
      m.Ready ∧ (m.stock.level i).toNat + amount.toNat ≤ i.capacity.toNat := by
  rw [succeeded_iff, Fits]
  exact and_congr_right fun _ => and_iff_right (UInt32.lt_iff_toNat_lt.1 hpos)

/-- What a report on a refill says of the machine before and after. -/
structure Accounted (r : Refill) (report : RefillReport) (before after : Machine) : Prop where
  ingredient : report.ingredient = r.ingredient
  level_before : report.before = before.stock.level r.ingredient
  added : r.added before = .ok report.added
  sum : report.after.toNat = report.before.toNat + report.added.toNat
  machine : after = { before with stock := before.stock.setLevel r.ingredient report.after }

theorem accounted_of_carryOut (h : r.carryOut m = .ok (report, after)) :
    r.Accounted report m after := by
  have hadded := added_of_carryOut h
  obtain ⟨added, -, h⟩ := ok_of_bind h
  obtain ⟨level, hlevel, h⟩ := ok_of_bind h
  obtain ⟨postconditions, -, h⟩ := ok_of_bind h
  cases h
  exact ⟨rfl, rfl, hadded, Count.toNat_of_plus_eq_ok hlevel, rfl⟩

/-- A refill that succeeds is accounted for, and its level does not end beyond the capacity. -/
theorem accounted_of_perform (h : (r.perform m).result = .ok report) :
    r.Accounted report m (r.perform m).machine ∧
      report.after.toNat ≤ r.ingredient.capacity.toNat := by
  obtain ⟨hmet, hdone⟩ := Attempt.of_guarded_eq_ok h
  have acc : r.Accounted report m (r.perform m).machine := accounted_of_carryOut hdone
  obtain ⟨-, hfits⟩ := (r.allMet_iff m).1 hmet
  obtain ⟨added, hadded, hroom⟩ := exists_added hfits
  cases Except.ok.inj (acc.added.symm.trans hadded)
  have hsum := acc.sum
  rw [acc.level_before] at hsum
  exact ⟨acc, by omega⟩

namespace Accounted

theorem level_after (acc : r.Accounted report m after) :
    after.stock.level r.ingredient = report.after := by
  rw [acc.machine]
  exact Stock.level_setLevel_self _ _ _

theorem others (acc : r.Accounted report m after) {j : Ingredient} (h : j ≠ r.ingredient) :
    after.stock.level j = m.stock.level j := by
  rw [acc.machine]
  exact Stock.level_setLevel_other _ _ h

theorem ready (acc : r.Accounted report m after) (ready : m.Ready) : after.Ready := by
  rw [acc.machine]
  exact ready.restocked _

theorem after_eq_capacity (acc : Accounted ⟨i, .toCapacity⟩ report m after) :
    report.after = i.capacity := by
  have hadded := Count.toNat_of_minus_eq_ok acc.added
  have hsum := acc.sum
  rw [acc.level_before] at hsum
  dsimp only at hadded hsum
  exact UInt32.toNat_inj.1 (by omega)

theorem toNat_after_exact (acc : Accounted ⟨i, .exact amount⟩ report m after) :
    report.after.toNat = (m.stock.level i).toNat + amount.toNat := by
  have hsum := acc.sum
  rw [acc.level_before, ← Except.ok.inj acc.added] at hsum
  exact hsum

end Accounted

/-! ## Sharing an amount -/

theorem restock_restock (m : Machine) (i : Ingredient) (former latter : Count) :
    { m with stock := (m.stock.setLevel i former).setLevel i latter } =
      { m with stock := m.stock.setLevel i latter } := by
  cases i <;> rfl

/-- Two refills of one ingredient come to the one by the sum of their amounts. -/
theorem perform_sum (ha : 0 < a) (hb : 0 < b) (hsum : (a + b).toNat = a.toNat + b.toNat) :
    let whole := perform ⟨i, .exact (a + b)⟩ m
    let first := perform ⟨i, .exact a⟩ m
    let second := perform ⟨i, .exact b⟩ first.machine
    (whole.succeeded = true ↔ first.succeeded = true ∧ second.succeeded = true) ∧
      (whole.succeeded = true → whole.machine = second.machine) := by
  intro whole first second
  have hpos : 0 < a + b := by
    rw [UInt32.lt_iff_toNat_lt] at *
    omega
  -- Once the first part is in, the second fits exactly if the whole did.
  have hsecond (hfirst : first.succeeded = true) :
      second.succeeded = true ↔ whole.succeeded = true := by
    obtain ⟨report, hresult⟩ := Attempt.exists_of_succeeded hfirst
    obtain ⟨acc, -⟩ := accounted_of_perform hresult
    obtain ⟨ready, -⟩ := (succeeded_exact_iff ha).1 hfirst
    have hlevel := acc.toNat_after_exact
    rw [succeeded_exact_iff hb, succeeded_exact_iff hpos, acc.level_after, hlevel, hsum,
      Nat.add_assoc]
    exact and_congr_left fun _ => iff_of_true (acc.ready ready) ready
  have hfirst (hwhole : whole.succeeded = true) : first.succeeded = true := by
    obtain ⟨ready, hroom⟩ := (succeeded_exact_iff hpos).1 hwhole
    exact (succeeded_exact_iff ha).2 ⟨ready, by omega⟩
  constructor
  · constructor
    · intro hwhole
      exact ⟨hfirst hwhole, (hsecond (hfirst hwhole)).2 hwhole⟩
    · rintro ⟨hdone, hdone'⟩
      exact (hsecond hdone).1 hdone'
  · intro hwhole
    obtain ⟨report, hresult⟩ := Attempt.exists_of_succeeded hwhole
    obtain ⟨report₁, hresult₁⟩ := Attempt.exists_of_succeeded (hfirst hwhole)
    obtain ⟨report₂, hresult₂⟩ := Attempt.exists_of_succeeded ((hsecond (hfirst hwhole)).2 hwhole)
    obtain ⟨acc, -⟩ := accounted_of_perform hresult
    obtain ⟨acc₁, -⟩ := accounted_of_perform hresult₁
    obtain ⟨acc₂, -⟩ := accounted_of_perform hresult₂
    have hlevel := acc.toNat_after_exact
    have hlevel₁ := acc₁.toNat_after_exact
    have hlevel₂ := acc₂.toNat_after_exact
    rw [acc₁.level_after] at hlevel₂
    have hsame : report.after = report₂.after := UInt32.toNat_inj.1 (by omega)
    rw [acc.machine, acc₂.machine, acc₁.machine, restock_restock, hsame]

/-- A refill up to the capacity is the one by what is missing. -/
theorem perform_missing (ready : m.Ready) (hroom : m.stock.level i < i.capacity) :
    perform ⟨i, .toCapacity⟩ m = perform ⟨i, .exact (i.capacity - m.stock.level i)⟩ m := by
  have hle : m.stock.level i ≤ i.capacity := UInt32.le_of_lt hroom
  have hlt := UInt32.lt_iff_toNat_lt.1 hroom
  have hmissing := UInt32.toNat_sub_of_le _ _ hle
  have hadded : added ⟨i, .toCapacity⟩ m =
      added ⟨i, .exact (i.capacity - m.stock.level i)⟩ m := if_pos hle
  have hcarryOut : carryOut ⟨i, .toCapacity⟩ m =
      carryOut ⟨i, .exact (i.capacity - m.stock.level i)⟩ m := by
    simp only [carryOut, hadded]
    rfl
  have hfits : Fits ⟨i, .exact (i.capacity - m.stock.level i)⟩ m := by
    simp only [Fits, hmissing]
    omega
  have hmet := (allMet_iff ⟨i, .toCapacity⟩ m).2 ⟨ready, hlt⟩
  have hmet' := (allMet_iff _ m).2 ⟨ready, hfits⟩
  rw [perform, perform, Attempt.guarded, Attempt.guarded, if_pos hmet, if_pos hmet', hcarryOut]

/-! ## Full tanks -/

theorem perform_of_full (hfull : i.capacity ≤ m.stock.level i) (wanted : RefillAmount) :
    perform ⟨i, wanted⟩ m =
      .refused (.preconditionsFailed .refill (preconditions ⟨i, wanted⟩ m).failed) m := by
  refine Attempt.guarded_eq_refused fun hmet => ?_
  obtain ⟨-, hfits⟩ := (allMet_iff _ m).1 hmet
  have hle := UInt32.le_iff_toNat_le.1 hfull
  cases wanted with
  | exact amount =>
    obtain ⟨hpos, hroom⟩ := hfits
    dsimp only at hpos hroom
    omega
  | toCapacity =>
    have hroom : (m.stock.level i).toNat < i.capacity.toNat := hfits
    omega

/-- The machine after a number of refills, carried out or refused. -/
def performAll (m : Machine) (refills : List Refill) : Machine :=
  refills.foldl (fun m r => (r.perform m).machine) m

theorem capacity_le_perform (hfull : i.capacity ≤ m.stock.level i) (r : Refill) :
    i.capacity ≤ (r.perform m).machine.stock.level i := by
  obtain ⟨j, wanted⟩ := r
  by_cases h : i = j
  · subst h
    rw [perform_of_full hfull]
    exact hfull
  · rw [perform_eq, Stock.level_setLevel_other _ _ h]
    exact hfull

theorem capacity_le_performAll (hfull : i.capacity ≤ m.stock.level i) (refills : List Refill) :
    i.capacity ≤ (performAll m refills).stock.level i := by
  induction refills generalizing m with
  | nil => exact hfull
  | cons r rest ih => exact ih (capacity_le_perform hfull r)

/-! ## Additive and exact -/

/-- **Refills are additive and exact**, whatever the levels. A refill by a sum succeeds exactly if
the refills by its parts do, one after the other, and comes to the same; one up to the capacity
succeeds exactly if there is something missing and the refill by that succeeds, and is the same.
What succeeds moves its own level by what it reports and nothing else, up to the capacity at most;
and once a tank is full, every further refill of it is refused, whatever was refilled in between. -/
theorem refill_additive (m : Machine) (i : Ingredient) :
    (∀ a b : Count, 0 < a → 0 < b → a.toNat + b.toNat < 2 ^ 32 →
      ((perform ⟨i, .exact (a + b)⟩ m).succeeded = true ↔
        (perform ⟨i, .exact a⟩ m).succeeded = true ∧
          (perform ⟨i, .exact b⟩ (perform ⟨i, .exact a⟩ m).machine).succeeded = true) ∧
      ((perform ⟨i, .exact (a + b)⟩ m).succeeded = true →
        (perform ⟨i, .exact (a + b)⟩ m).machine =
          (perform ⟨i, .exact b⟩ (perform ⟨i, .exact a⟩ m).machine).machine)) ∧
    (((perform ⟨i, .toCapacity⟩ m).succeeded = true ↔ m.stock.level i < i.capacity ∧
        (perform ⟨i, .exact (i.capacity - m.stock.level i)⟩ m).succeeded = true) ∧
      ((perform ⟨i, .toCapacity⟩ m).succeeded = true →
        perform ⟨i, .toCapacity⟩ m = perform ⟨i, .exact (i.capacity - m.stock.level i)⟩ m)) ∧
    (∀ wanted report, (perform ⟨i, wanted⟩ m).result = .ok report →
      Accounted ⟨i, wanted⟩ report m (perform ⟨i, wanted⟩ m).machine ∧
        (∀ j, j ≠ i → (perform ⟨i, wanted⟩ m).machine.stock.level j = m.stock.level j) ∧
        report.after ≤ i.capacity ∧ (wanted = .toCapacity → report.after = i.capacity)) ∧
    ((perform ⟨i, .toCapacity⟩ m).succeeded = true → ∀ (between : List Refill) later wanted,
      performAll (perform ⟨i, .toCapacity⟩ m).machine between = later →
      (perform ⟨i, wanted⟩ later).succeeded = false ∧ (perform ⟨i, wanted⟩ later).machine = later) := by
  refine ⟨?_, ⟨?_, ?_⟩, ?_, ?_⟩
  · intro a b ha hb hsmall
    exact perform_sum ha hb (by rw [UInt32.toNat_add, Nat.mod_eq_of_lt hsmall])
  · constructor
    · intro hfull
      obtain ⟨ready, hfits⟩ := (succeeded_iff _ m).1 hfull
      have hroom : m.stock.level i < i.capacity := UInt32.lt_iff_toNat_lt.2 hfits
      exact ⟨hroom, perform_missing ready hroom ▸ hfull⟩
    · rintro ⟨hroom, hmissing⟩
      obtain ⟨ready, -⟩ := (succeeded_iff _ m).1 hmissing
      rw [perform_missing ready hroom]
      exact hmissing
  · intro hfull
    obtain ⟨ready, hfits⟩ := (succeeded_iff _ m).1 hfull
    exact perform_missing ready (UInt32.lt_iff_toNat_lt.2 hfits)
  · intro wanted report hresult
    obtain ⟨acc, hle⟩ := accounted_of_perform hresult
    refine ⟨acc, fun j => acc.others, UInt32.le_iff_toNat_le.2 hle, ?_⟩
    rintro rfl
    exact acc.after_eq_capacity
  · rintro hfull between later wanted rfl
    obtain ⟨report, hresult⟩ := Attempt.exists_of_succeeded hfull
    obtain ⟨acc, -⟩ := accounted_of_perform hresult
    have hlevel := acc.level_after.trans acc.after_eq_capacity
    have hlater := capacity_le_performAll (UInt32.le_of_eq hlevel.symm) between
    rw [perform_of_full hlater]
    exact ⟨rfl, rfl⟩

/-- A delivered machine takes a litre of water at once or in two parts, reports that it is full then,
and takes none after that. -/
theorem refill_additive_water :
    (perform ⟨.water, .exact (400 + 600)⟩ .fresh).machine =
        (perform ⟨.water, .exact 600⟩ (perform ⟨.water, .exact 400⟩ .fresh).machine).machine ∧
      perform ⟨.water, .toCapacity⟩ .fresh = perform ⟨.water, .exact 1000⟩ .fresh ∧
      (∃ report, (perform ⟨.water, .toCapacity⟩ .fresh).result = .ok report ∧
        report.after = 2000) ∧
      (perform ⟨.water, .exact 1⟩ (perform ⟨.water, .toCapacity⟩ .fresh).machine).succeeded =
        false := by
  obtain ⟨hparts, ⟨-, hmissing⟩, hreports, hfull⟩ := refill_additive .fresh .water
  obtain ⟨-, hsame⟩ := hparts 400 600 (by decide) (by decide) (by decide)
  have htaken : (perform ⟨.water, .toCapacity⟩ .fresh).succeeded = true := by decide +kernel
  obtain ⟨report, hresult⟩ := Attempt.exists_of_succeeded htaken
  obtain ⟨-, -, -, hcapacity⟩ := hreports .toCapacity report hresult
  exact ⟨hsame (by decide +kernel), hmissing htaken, ⟨report, hresult, hcapacity rfl⟩,
    (hfull htaken [] _ (.exact 1) rfl).1⟩

end Barista.Refill
