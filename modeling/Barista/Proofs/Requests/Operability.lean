/-
What the status of a machine says about requests.

The status has thresholds of its own: waste counts as dirty before it is
critical, stock as there from the first unit on, and the mode names the first
trouble only, so a worn machine that is brewing is in maintenance. Still it
never promises what is then refused: a critical notice rules out every order
(`Machine.not_supplied_of_critical`), and only a machine that is ready is in
normal mode or can operate (`Machine.ready_of_normal`,
`Machine.ready_of_canOperate`).
-/
import Barista.Proofs.Requests.Recovery
import Barista.Status

namespace Barista

/-- Rejected for the conditions that are not met, and the machine left as it was. -/
def Request.Rejected (r : Request) (m : Machine) : Prop :=
  r.perform m = .refused (.preconditionsFailed r.operation (r.preconditions m).failed) m

theorem Order.takes_pos (o : Order) :
    0 < o.takes .water ∧ 0 < o.takes .coffee ∧ 0 < o.takes .cups := by
  have hrecipe : 0 < o.drink.recipe.water ∧ 0 < o.drink.recipe.coffee := by
    cases o.drink <;> decide
  simp only [UInt32.lt_iff_toNat_lt] at hrecipe
  exact ⟨hrecipe.1, hrecipe.2, Nat.one_pos⟩

namespace Machine

variable {m : Machine}

/-! ## Requests to a machine that is not ready -/

theorem rejected_of_not_ready (h : ¬ m.Ready) :
    (∀ policy o start, (Request.brew policy o start).Rejected m) ∧
      ∀ r, (Request.refill r).Rejected m := by
  constructor
  · intro policy o start
    exact Request.perform_eq_refused fun hmet => h ((o.allMet_iff policy m).1 hmet).1
  · intro r
    exact Request.perform_eq_refused fun hmet => h ((r.allMet_iff m).1 hmet).1

/-- Whatever is ordered, the conditions on the machine itself come first, and are met. -/
def OperationalMet (m : Machine) : Prop :=
  ∀ (policy : MilkPolicy) (o : Order), (o.preconditions policy m).entries.take 3 =
    [ ("machine not broken", true), ("machine not brewing", true),
      ("waste level not critical", true) ]

theorem Ready.operationalMet (ready : m.Ready) : m.OperationalMet := by
  intro policy o
  have hwaste : m.waste < criticalWaste := UInt32.lt_iff_toNat_lt.2 ready.waste_lt
  rw [Order.entries_eq]
  simp [operational, ready.not_broken, ready.not_brewing, hwaste]

/-! ## What the status says -/

theorem has_critical_iff (m : Machine) : m.status.has .critical = true ↔
    m.isBroken = true ∨ m.stock.water = 0 ∨ m.stock.coffee = 0 ∨ m.stock.cups = 0 := by
  -- The closing remark is none of them.
  have hraised : m.status.has .critical =
      m.alarms.any fun alarm => alarm.1 && decide (alarm.2.priority = .critical) := by
    simp only [Status.has, status, notices, List.any_append, List.any_map, List.any_filter,
      List.any_cons, List.any_nil, Function.comp_def, reduceCtorEq, decide_false, Bool.or_false]
  rw [hraised]
  simp [alarms]

/-- **Nothing can be brewed while a notice is critical**: the machine is broken, or lacks what every
order takes. -/
theorem not_supplied_of_critical (h : m.status.has .critical = true) :
    ¬ m.Ready ∨ ∀ o : Order, ∃ i, (m.stock.level i).toNat < o.takes i := by
  rcases (has_critical_iff m).1 h with hbroken | hwater | hcoffee | hcups
  · refine .inl fun ready => ?_
    rw [ready.not_broken] at hbroken
    cases hbroken
  · exact .inr fun o => ⟨.water, by rw [Stock.level, hwater]; exact o.takes_pos.1⟩
  · exact .inr fun o => ⟨.coffee, by rw [Stock.level, hcoffee]; exact o.takes_pos.2.1⟩
  · exact .inr fun o => ⟨.cups, by rw [Stock.level, hcups]; exact o.takes_pos.2.2⟩

theorem Ready.mode (ready : m.Ready) :
    m.mode = if m.needsMaintenance then .maintenance else .normal := by
  have hwaste : ¬ criticalWaste ≤ m.waste := by
    rw [UInt32.le_iff_toNat_le]
    exact Nat.not_le.2 ready.waste_lt
  simp [Machine.mode, ready.not_broken, ready.not_brewing, hwaste]

/-- **Only a machine that is ready is in normal mode.** -/
theorem ready_of_normal (h : m.mode = .normal) : m.Ready := by
  unfold Machine.mode at h
  split at h
  · cases h
  · next hbroken =>
    split at h
    · cases h
    · split at h
      · cases h
      · next hbrewing =>
        split at h
        · cases h
        · next hwaste =>
          refine ⟨Bool.eq_false_iff.2 hbroken, Bool.eq_false_iff.2 hbrewing, ?_⟩
          rw [UInt32.le_iff_toNat_le] at hwaste
          exact Nat.not_le.1 hwaste

theorem canOperate_iff (m : Machine) : m.status.canOperate = true ↔
    0 < m.stock.water ∧ 0 < m.stock.coffee ∧ 0 < m.stock.cups ∧ 90 ≤ m.temperature ∧
      m.waste < dirtyWaste ∧ m.isBroken = false ∧ m.isBrewing = false := by
  simp [status, and_assoc]

/-- **Only a machine that is ready can operate**, and none of its notices is critical. -/
theorem ready_of_canOperate (h : m.status.canOperate = true) :
    m.Ready ∧ m.status.has .critical = false := by
  obtain ⟨hwater, hcoffee, hcups, -, hclean, hbroken, hbrewing⟩ := (canOperate_iff m).1 h
  rw [UInt32.lt_iff_toNat_lt] at hclean
  refine ⟨⟨hbroken, hbrewing, Nat.lt_trans hclean (by decide)⟩, ?_⟩
  rw [Bool.eq_false_iff, ne_eq, has_critical_iff, hbroken]
  rintro (hno | hno | hno | hno)
  · cases hno
  · exact absurd (hno ▸ hwater) (by decide)
  · exact absurd (hno ▸ hcoffee) (by decide)
  · exact absurd (hno ▸ hcups) (by decide)

/-! ## The status and the guards -/

/-- **The status and what is refused agree.** Every order is rejected while a notice is critical,
every order and every refill in error and in standby; and a machine that is said to operate, or to
be in normal mode, meets the conditions on the machine itself, with no critical notice and room for
every refill in the first case. -/
theorem status_consistent (m : Machine) :
    (m.status.has .critical = true →
      ∀ policy o start, (Request.brew policy o start).Rejected m) ∧
    (m.status.mode = .error ∨ m.status.mode = .standby →
      (∀ policy o start, (Request.brew policy o start).Rejected m) ∧
        ∀ r, (Request.refill r).Rejected m) ∧
    (m.status.canOperate = true →
      m.status.has .critical = false ∧
        (m.status.mode = .normal ∨ m.status.mode = .maintenance) ∧ m.OperationalMet ∧
        ∀ i, m.stock.level i < i.capacity →
          ((Request.refill ⟨i, .toCapacity⟩).perform m).succeeded = true) ∧
    (m.status.mode = .normal → m.OperationalMet) := by
  refine ⟨?_, ?_, ?_, fun h => (ready_of_normal h).operationalMet⟩
  · intro h policy o start
    refine Request.perform_eq_refused fun hmet => ?_
    obtain ⟨ready, hstock, -⟩ := (o.allMet_iff policy m).1 hmet
    rcases not_supplied_of_critical h with hready | hshort
    · exact hready ready
    · obtain ⟨i, hi⟩ := hshort o
      exact absurd (hstock i) (Nat.not_le.2 hi)
  · intro h
    refine rejected_of_not_ready fun ready => ?_
    rw [show m.status.mode = m.mode from rfl, ready.mode] at h
    cases hworn : m.needsMaintenance <;> simp [hworn] at h
  · intro h
    obtain ⟨ready, hcritical⟩ := ready_of_canOperate h
    refine ⟨hcritical, ?_, ready.operationalMet, fun i hi => ?_⟩
    · rw [show m.status.mode = m.mode from rfl, ready.mode]
      cases m.needsMaintenance
      · exact .inl rfl
      · exact .inr rfl
    · rw [UInt32.lt_iff_toNat_lt] at hi
      obtain ⟨report, stock, hdone, -⟩ := Refill.perform_toCapacity ready hi
      rw [hdone]
      rfl

/-- A delivered machine can operate, has room for water and is in normal mode; without water it
brews nothing, and while it is brewing it is not refilled. -/
theorem status_consistent_fresh :
    ((Request.refill ⟨.water, .toCapacity⟩).perform fresh).succeeded = true ∧
      fresh.OperationalMet ∧
      (∀ policy o start, (Request.brew policy o start).Rejected
        { fresh with stock := fresh.stock.setLevel .water 0 }) ∧
      ∀ r, (Request.refill r).Rejected (fresh.startBrewing 28 0) := by
  obtain ⟨-, -, hoperates, hnormal⟩ := status_consistent fresh
  obtain ⟨hcritical, -⟩ := status_consistent { fresh with stock := fresh.stock.setLevel .water 0 }
  obtain ⟨-, hstandby, -⟩ := status_consistent (fresh.startBrewing 28 0)
  obtain ⟨-, -, -, hroom⟩ := hoperates (by decide +kernel)
  exact ⟨hroom .water (by decide), hnormal (by decide +kernel), hcritical (by decide +kernel),
    (hstandby (by decide +kernel)).2⟩

end Machine

end Barista
