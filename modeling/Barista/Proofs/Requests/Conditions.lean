/-
What the conditions of an operation come to.

Whether an operation is carried out is decided by its named conditions alone.
Their names are distinct, so none is recorded in the place of another
(`Order.entries_eq`), and all of them are met exactly if the machine is ready
and there is enough of everything, or room for it (`Order.allMet_iff`,
`Refill.allMet_iff`, `Maintenance.allMet_iff`). Nothing is asked of the
machine itself here; its wear may even be no number.
-/
import Barista.Proofs.Requests.Effects

namespace Barista

namespace Conditions

theorem mem_failed {c : Conditions} {name : String} (h : (name, false) ∈ c.entries) :
    name ∈ c.failed :=
  List.mem_map.2 ⟨(name, false), List.mem_filter.2 ⟨h, rfl⟩, rfl⟩

theorem allMet_iff_metCount (c : Conditions) : c.allMet = true ↔ c.metCount = c.size := by
  rw [allMet, List.all_eq_true, metCount, size, List.countP_eq_length]

theorem not_allMet_of_mem_failed {c : Conditions} {name : String} (h : name ∈ c.failed) :
    ¬ c.allMet = true := by
  rw [allMet_iff_failed_eq_nil]
  exact List.ne_nil_of_mem h

end Conditions

namespace Machine

/-- Neither broken nor brewing, and with room for waste. -/
structure Ready (m : Machine) : Prop where
  not_broken : m.isBroken = false
  not_brewing : m.isBrewing = false
  waste_lt : m.waste.toNat < 90

theorem all_operational_iff {m : Machine} : m.operational.all (·.2) = true ↔ m.Ready := by
  have hwaste : m.waste < criticalWaste ↔ m.waste.toNat < 90 := UInt32.lt_iff_toNat_lt
  simp only [operational, List.all_cons, List.all_nil, Bool.and_true, Bool.and_eq_true,
    Bool.not_eq_true', decide_eq_true_eq, hwaste]
  constructor
  · rintro ⟨hbroken, hbrewing, hlt⟩
    exact ⟨hbroken, hbrewing, hlt⟩
  · rintro ⟨hbroken, hbrewing, hlt⟩
    exact ⟨hbroken, hbrewing, hlt⟩

end Machine

/-! ## Brewing -/

namespace Order

/-- Milk is not asked for in a black coffee where that is refused. -/
def Compatible (policy : MilkPolicy) (o : Order) : Prop :=
  ¬ (policy = .strict ∧ o.milk = true ∧ o.drink.isBlack = true)

/-- The condition by which an ingredient is asked for. -/
def supplyCondition : Ingredient → String
  | .water => "enough water"
  | .coffee => "enough coffee"
  | .milk => "enough milk"
  | .cups => "cups available"
  | .sugar => "enough sugar"

/-- There is as much of the ingredient as the order takes. -/
def supplied (o : Order) (m : Machine) (i : Ingredient) : Bool :=
  o.takes i ≤ (m.stock.level i).toNat

/-- What a policy has to say on an order. -/
def compatibility (o : Order) : MilkPolicy → List (String × Bool)
  | .permissive => []
  | .strict => [("milk compatible with drink", !(o.milk && o.drink.isBlack))]

theorem supplied_milk (o : Order) (m : Machine) :
    o.supplied m .milk = (!o.milk || decide (o.drink.recipe.milk ≤ m.stock.milk)) := by
  rw [supplied, takes]
  cases o.milk <;> simp [Stock.level, UInt32.le_iff_toNat_le]

theorem supplied_cups (o : Order) (m : Machine) :
    o.supplied m .cups = decide (0 < m.stock.cups) := by
  simp [supplied, takes, Stock.level, UInt32.lt_iff_toNat_lt, Nat.succ_le_iff]

theorem entries_eq (policy : MilkPolicy) (o : Order) (m : Machine) :
    (o.preconditions policy m).entries = m.operational ++
      Ingredient.all.map (fun i => (supplyCondition i, o.supplied m i)) ++
        o.compatibility policy := by
  simp only [Ingredient.all, List.map_cons, List.map_nil, supplied_milk, supplied_cups]
  cases policy <;>
    rw [preconditions, Conditions.entries_ofList (by simp [Machine.operational])] <;>
    simp only [UInt32.le_iff_toNat_le] <;>
    rfl

theorem names_preconditions (policy : MilkPolicy) (o : Order) (m : Machine) :
    (o.preconditions policy m).names =
      [ "machine not broken", "machine not brewing", "waste level not critical", "enough water",
        "enough coffee", "enough milk", "cups available", "enough sugar" ] ++
        match policy with
        | .permissive => []
        | .strict => ["milk compatible with drink"] := by
  rw [Conditions.names, entries_eq]
  cases policy <;> rfl

theorem all_compatibility_iff (policy : MilkPolicy) (o : Order) :
    (o.compatibility policy).all (·.2) = true ↔ o.Compatible policy := by
  cases policy with
  | permissive => simp [compatibility, Compatible]
  | strict => cases hm : o.milk <;> simp [compatibility, Compatible, hm]

/-- **An order can be brewed if the machine is ready and has what the order takes**, and the policy
lets it pass. -/
theorem allMet_iff (policy : MilkPolicy) (o : Order) (m : Machine) :
    (o.preconditions policy m).allMet = true ↔
      m.Ready ∧ (∀ i, o.takes i ≤ (m.stock.level i).toNat) ∧ o.Compatible policy := by
  have hsupplies : (Ingredient.all.map fun i => (supplyCondition i, o.supplied m i)).all (·.2) =
      true ↔ ∀ i, o.takes i ≤ (m.stock.level i).toNat := by
    simp only [List.all_map, List.all_eq_true, Function.comp_apply, supplied, decide_eq_true_eq,
      Ingredient.mem_all, true_implies]
  rw [Conditions.allMet, entries_eq, List.all_append, List.all_append, Bool.and_eq_true,
    Bool.and_eq_true, Machine.all_operational_iff, hsupplies, all_compatibility_iff, and_assoc]

theorem get?_supplyCondition (policy : MilkPolicy) (o : Order) (m : Machine) (i : Ingredient) :
    (o.preconditions policy m).get? (supplyCondition i) = some (o.supplied m i) := by
  rw [Conditions.get?, entries_eq]
  cases i <;> simp [Machine.operational, Ingredient.all, supplyCondition]

end Order

/-! ## Refilling -/

namespace Refill

/-- The refill adds something, and there is room for it. -/
def Fits (r : Refill) (m : Machine) : Prop :=
  let level := (m.stock.level r.ingredient).toNat
  match r.amount with
  | .exact amount => 0 < amount.toNat ∧ level + amount.toNat ≤ r.ingredient.capacity.toNat
  | .toCapacity => level < r.ingredient.capacity.toNat

theorem allMet_iff (r : Refill) (m : Machine) :
    (r.preconditions m).allMet = true ↔ m.Ready ∧ r.Fits m := by
  have havailable : (r.available m).toNat =
      r.ingredient.capacity.toNat - (m.stock.level r.ingredient).toNat :=
    Count.toNat_minusFloored _ _
  rw [Conditions.allMet, preconditions, Fits]
  cases r.amount with
  | exact amount =>
    rw [Conditions.entries_ofList (by simp [Machine.operational]), List.all_append,
      Bool.and_eq_true, Machine.all_operational_iff]
    simp only [List.all_cons, List.all_nil, Bool.and_true, Bool.and_eq_true, decide_eq_true_eq,
      UInt32.lt_iff_toNat_lt, UInt32.le_iff_toNat_le, havailable, UInt32.toNat_zero]
    apply and_congr_right
    intro _
    omega
  | toCapacity =>
    rw [Conditions.entries_ofList (by simp [Machine.operational]), List.all_append,
      Bool.and_eq_true, Machine.all_operational_iff]
    simp only [List.all_cons, List.all_nil, Bool.and_true, decide_eq_true_eq,
      UInt32.lt_iff_toNat_lt, havailable, UInt32.toNat_zero, Nat.sub_pos_iff_lt]

end Refill

/-! ## Maintenance -/

theorem Maintenance.allMet_iff (m : Machine) :
    (preconditions m).allMet = true ↔ m.isBrewing = false ∧ 0 < m.waste.toNat := by
  rw [Conditions.allMet, preconditions, Conditions.entries_ofList (by simp)]
  simp [UInt32.lt_iff_toNat_lt]

end Barista
