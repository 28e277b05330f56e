/-
Wear and health.

Wear is kept between 0 and 100, and health is what it leaves of a hundred
percent, rounded up: `Machine.healthAt_eq` says it of the number that the wear
is, so more wear never means more health. `Machine.Sound` is what the
operations keep of waste, wear and health together.
-/
import Barista.Brewing
import Barista.Maintenance.Basic
import Barista.Proofs.Machine.Timer
import Mathlib.Data.Rat.Floor

namespace Barista

open Binary64

namespace Machine

/-! ## Health -/

/-- **Health is what the whole part of the wear leaves of a hundred.** -/
theorem healthAt_eq {wear : Binary64} (b : Between 0 100 wear) :
    ((healthAt wear).toNat : ℤ) = 100 - ⌊wear.value⌋ := by
  have hone := Binary64.one_pos
  obtain ⟨hlow, hhigh⟩ := b.units_le
  rw [units_zero] at hlow
  have hhundred : (100 : Binary64).units = (100 * one : Nat) := by decide +kernel
  have hsize : 100 < UInt32.size := by decide
  have hwhole : wear.units.natAbs / one ≤ 100 := by
    have : wear.units.natAbs ≤ 100 * one := by omega
    exact Nat.div_le_of_le_mul (by rwa [Nat.mul_comm])
  obtain ⟨ffloor, hfloor⟩ := floor_spec b.finite hlow (by omega)
  rw [floor_value hlow]
  generalize wear.units.natAbs / one = worn at hwhole hfloor ⊢
  obtain ⟨frest, hrest⟩ := sub_whole b.high_finite ffloor hhundred hfloor hwhole (by decide)
  have hin : Between 0 100 (100 - wear.floor) := by
    refine ⟨(le_iff_units b.low_finite frest).2 ?_, (le_iff_units frest b.high_finite).2 ?_,
      b.low_finite, b.high_finite⟩
    · rw [units_zero, hrest]
      omega
    · rw [hhundred, hrest]
      exact Int.ofNat_le.2 (Nat.mul_le_mul_right one (by omega))
  rw [healthAt, hin.clamp_eq, wholePart_eq (by rw [hrest]; omega), hrest, Int.toNat_natCast,
    Nat.mul_div_cancel _ hone, UInt32.toNat_ofNat_of_lt' (Nat.lt_of_le_of_lt (by omega) hsize)]
  omega

theorem floor_mono {a b : Binary64} (ha : a.isFinite = true) (hb : b.isFinite = true) (h : a ≤ b) :
    ⌊a.value⌋ ≤ ⌊b.value⌋ := by
  rw [value, value, Rat.floor_intCast_div_natCast, Rat.floor_intCast_div_natCast]
  exact Int.ediv_le_ediv (Int.natCast_pos.2 Binary64.one_pos) ((le_iff_units ha hb).1 h)

/-! ## What the operations keep -/

/-- Waste and wear are percentages, and health is what the wear leaves. -/
structure Sound (m : Machine) : Prop where
  waste_le : m.waste.toNat ≤ 100
  wear_nonneg : 0 ≤ m.wear
  wear_le : m.wear ≤ 100
  health_eq : (m.health.toNat : ℤ) = 100 - ⌊m.wear.value⌋

theorem Sound.wear_between {m : Machine} (h : m.Sound) : Between 0 100 m.wear :=
  ⟨h.wear_nonneg, h.wear_le, by decide +kernel, by decide +kernel⟩

theorem not_broken_of_wear_le {m : Machine} (h : m.wear ≤ 90) : m.isBroken = false := by
  refine decide_eq_false fun hbroken => ?_
  have h90 : (100 : Binary64) ≤ 90 := Binary64.le_trans hbroken h
  exact absurd h90 (by decide +kernel)

/-- **No health is left exactly if the machine is broken.** -/
theorem Sound.health_eq_zero_iff {m : Machine} (h : m.Sound) : m.health = 0 ↔ m.isBroken = true := by
  have b := h.wear_between
  have hlow := b.units_le.1
  rw [units_zero] at hlow
  have hhundred : (100 : Binary64).units = (100 * one : Nat) := by decide +kernel
  have hbroken : m.isBroken = true ↔ 100 ≤ m.wear.units.natAbs / one := by
    rw [isBroken, decide_eq_true_eq, le_iff_units b.high_finite b.finite, hhundred,
      Nat.le_div_iff_mul_le Binary64.one_pos]
    omega
  have hhealth := h.health_eq
  rw [floor_value hlow] at hhealth
  rw [hbroken, ← UInt32.toNat_inj, UInt32.toNat_zero]
  omega

theorem sound_fresh : fresh.Sound := by
  have hhealth := healthAt_eq (Between.refl isFinite_zero |>.weaken (by decide +kernel))
  rw [show healthAt 0 = fresh.health by decide +kernel] at hhealth
  exact ⟨by decide, by decide +kernel, by decide +kernel, hhealth⟩

theorem increased_between {wear amount : Binary64} (b : Between 0 100 wear)
    (hamount : amount.isNaN = true ∨ 0 ≤ amount) : Between 0 100 ((wear + amount).least 100) :=
  .least ((isNaN_or_le_add b.finite hamount).imp_right (Binary64.le_trans b.low))
    (by decide +kernel)

theorem decreased_between {wear amount : Binary64} (b : Between 0 100 wear)
    (hamount : amount.isNaN = true ∨ 0 ≤ amount) : Between 0 100 ((wear - amount).greatest 0) :=
  .greatest ((isNaN_or_sub_le b.finite hamount).imp_right fun hle => Binary64.le_trans hle b.high)
    (by decide +kernel)

theorem reduced_between {wear : Binary64} (b : Between 0 100 wear) (s : Service) :
    Between 0 90 ((wear - s.wearReduction).greatest 0) ∧
      (wear - s.wearReduction).greatest 0 ≤ wear := by
  have hreduction : Between 10 30 s.wearReduction := by
    cases s <;> exact ⟨by decide +kernel, by decide +kernel, by decide +kernel, by decide +kernel⟩
  have hrest : Between (0 - 30) 90 (wear - s.wearReduction) :=
    (b.sub hreduction (by decide +kernel)).weaken (by decide +kernel)
  have hpos : 0 ≤ s.wearReduction.units :=
    Int.le_trans (show (0 : Int) ≤ (10 : Binary64).units by decide +kernel) hreduction.units_le.1
  refine ⟨.greatest (.inr hrest.high) (by decide +kernel), ?_⟩
  unfold greatest
  rw [isNaN_of_isFinite hrest.finite, if_neg (by decide)]
  split
  · exact b.low
  · exact sub_le b.finite hreduction.finite hpos

end Machine

theorem Order.wear_between (o : Order) : Between 0 429496731 o.wear := by
  have hdrink : Between 0 1 (0.5 + o.drink.wear) := by
    cases o.drink <;> exact ⟨by decide +kernel, by decide +kernel, by decide +kernel, by decide +kernel⟩
  have hsugar : Between 0 429496729.5 (0.1 * Binary64.ofNat o.sugar.toNat) := by
    have htenth : Between 0.1 0.1 0.1 := .refl (by decide +kernel)
    exact (htenth.mul o.sugar.between_ofNat (by decide +kernel)).weaken (by decide +kernel)
  have hmilk : Between 0.2 0.2 0.2 := .refl (by decide +kernel)
  have hsweet := hdrink.add_ite (c := 0 < o.sugar) (fun _ => hsugar) (by decide +kernel)
  have hwear := hsweet.add_ite (c := o.milk = true) (fun _ => hmilk) (by decide +kernel)
  exact hwear.weaken (by decide +kernel)

end Barista
