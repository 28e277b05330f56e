/-
What the bound on a loop's iterations is worth.

`Rate.bound` divides the distance by the rate, rounds up, doubles and adds
one, every step in doubles. `Rate.bound_spec` says what survives of that: the
bound is at least twice a whole number that is not below the rounded
quotient. With the roundings of the distance and of the quotient taken off
again it is `Rate.bound_covers`: seven sixths of the rate for every two
iterations, and half of it for an odd one, cover the distance. Steps in
doubles go that far (`Binary64.climb`).
-/
import Barista.Cycle.Rate
import Barista.Proofs.Binary64.Bounds
import Barista.Proofs.Binary64.Climb

namespace Barista.Binary64

/-! ## Numbers that are not negative -/

theorem isFinite_of_ceil {x : Binary64} (h : x.ceil.isFinite = true) : x.isFinite = true := by
  cases x with
  | nan => cases h
  | infinity s => cases h
  | finite s n v => rfl

theorem ceil_nonneg {x : Binary64} {z : Int} (h : x.position? = some z) (hz : 0 ≤ z) :
    ∃ w, x.ceil.position? = some w ∧ 0 ≤ w := by
  cases x with
  | nan => cases h
  | infinity s => exact ⟨z, h, hz⟩
  | finite s n v =>
    rw [ceil_finite, position?_ofWhole]
    refine ⟨_, rfl, held_nonneg (nearest_nonneg ?_ 1)⟩
    injection h with h
    subst h
    cases s with
    | false => exact Int.natCast_nonneg _
    | true =>
      obtain rfl := eq_zero_of_nonneg (v := v) hz
      simp

theorem ceil_le {x : Binary64} {k : Nat} (hk : k ≤ 2 ^ 53) (h : x ≤ ofNat k) : x.ceil ≤ ofNat k := by
  cases x with
  | nan => exact h
  | infinity s => exact h
  | finite s n v =>
    obtain ⟨fk, ek⟩ := ofNat_spec hk
    rw [le_iff_units rfl fk, ek, units] at h
    have hplace := position?_ofWhole false k
    rw [ceil_finite]
    refine le_iff.2 ⟨_, _, position?_ofWhole _ _, hplace, held_mono (nearest_mono_units ?_)⟩
    cases s with
    | true =>
      simp only [signed, if_true, Bool.false_eq_true, if_false]
      omega
    | false =>
      simp only [signed, Bool.false_eq_true, if_false] at h ⊢
      have hn : n ≤ k * one := Int.ofNat_le.1 h
      have hceil : (n + (one - 1)) / one ≤ k := by
        rw [← Nat.lt_succ_iff, Nat.div_lt_iff_lt_mul one_pos, Nat.succ_mul]
        have := one_pos
        omega
      exact Int.ofNat_le.2 (Nat.mul_le_mul_right one hceil)

theorem div_le {x y : Binary64} {k : Nat} (hk : k ≤ 2 ^ 53) (hx : x.isFinite = true)
    (hle : x ≤ ofNat k) (hy : y.isFinite = true) (hone : 1 ≤ y) : x / y ≤ ofNat k := by
  obtain ⟨fk, ek⟩ := ofNat_spec hk
  rw [le_iff_units hx fk, ek] at hle
  rw [le_iff_units (by decide +kernel) hy, units_one] at hone
  have hpos : (0 : Int) < one := Int.natCast_pos.2 one_pos
  have hplace := position?_ofWhole false k
  have hexact := onGrid_mul_one hk
  refine le_iff.2 ⟨_, _, position?_div hx hy (by omega), hplace, held_mono ?_⟩
  rw [show signed false (k * one) = (k * one : Nat) from rfl, hexact.nearest_eq,
    ← hexact.nearest_mul one_pos]
  apply nearest_mono (by omega) one_pos
  rw [show (y.units.natAbs : Int) = y.units by omega]
  exact Int.mul_le_mul (Int.mul_le_mul_of_nonneg_right hle (Int.le_of_lt hpos)) hone
    (Int.le_of_lt hpos) (Int.mul_nonneg (Int.natCast_nonneg _) (Int.le_of_lt hpos))

theorem greatest_zero {x : Binary64} {z : Int} (h : x.position? = some z) (hz : 0 ≤ z) :
    x.greatest 0 = x := by
  have hlt : ¬ x < 0 := by
    rw [lt_iff, position?_eq_units isFinite_zero, units_zero]
    rintro ⟨y, w, hy, hw, hyw⟩
    rw [h] at hy
    cases hy
    cases hw
    omega
  unfold greatest
  cases x with
  | nan => cases h
  | infinity s => rw [if_neg (by simp [isNaN]), if_neg hlt]
  | finite s n v => rw [if_neg (by simp [isNaN]), if_neg hlt]

end Barista.Binary64

namespace Barista.Rate

open Binary64

variable {distance rate : Binary64} {n : Nat}

/-! ## The checks -/

@[simp] theorem checkFinite_eq_ok {name : String} {value : Binary64} :
    checkFinite name value = .ok () ↔ value.isFinite = true := by
  unfold checkFinite
  split <;> simp_all

@[simp] theorem checkPositive_eq_ok {process : String} :
    checkPositive process rate = .ok () ↔ rate.isFinite = true ∧ 0 < rate := by
  unfold checkPositive
  split <;> simp_all

@[simp] theorem checkProgress_eq_ok {process : String} {magnitude : Binary64} :
    checkProgress process rate magnitude = .ok () ↔
      (magnitude + rate).sameNumber magnitude = false := by
  unfold checkProgress
  split <;> simp_all

theorem seq_eq_ok {first rest : Except Fault Unit} :
    (first >>= fun _ => rest) = .ok () ↔ first = .ok () ∧ rest = .ok () := by
  cases first with
  | error fault => simp [bind, Except.bind]
  | ok u => simp [bind, Except.bind]

/-! ## What the bound is made of -/

theorem bound_eq_some (h : bound distance rate = some n) :
    ∃ steps, steps = (distance / rate).ceil.greatest 0 * 2 + 1 ∧ steps.isFinite = true ∧
      n = steps.wholePart := by
  simp only [bound] at h
  split at h
  · next hc =>
    injection h with h
    rw [Bool.and_eq_true] at hc
    exact ⟨_, rfl, hc.1, h.symm⟩
  · cases h

theorem isFinite_of_bound {z : Int} (hz : distance.position? = some z) (hz0 : 0 ≤ z)
    (hr : rate.isFinite = true) (hr0 : 0 < rate.units) (h : bound distance rate = some n) :
    distance.isFinite = true := by
  obtain ⟨steps, hsteps, hfin, -⟩ := bound_eq_some h
  cases distance with
  | nan => cases hz
  | finite s m v => rfl
  | infinity s =>
    have hlim : (0 : Int) < limit := Int.natCast_pos.2 limit_pos
    obtain rfl : s = false := by
      cases s with
      | false => rfl
      | true => simp only [position?, signed, if_true, Option.some.injEq] at hz; omega
    obtain ⟨m, v, rfl⟩ := exists_finite_of_pos hr hr0
    have hinf : ((infinity false / finite false m v).ceil.greatest 0 * 2 + 1).isFinite = false :=
      show ((infinity false).greatest 0 * 2 + 1).isFinite = false by decide +kernel
    rw [hsteps, hinf] at hfin
    cases hfin

/-- **What the bound is.** At least twice a whole number that is not below the rounded quotient,
and at least one. -/
theorem bound_spec (hd : distance.isFinite = true) (hd0 : 0 ≤ distance.units)
    (hr : rate.isFinite = true) (hr0 : 0 < rate.units) (h : bound distance rate = some n) :
    ∃ k : Nat, 2 * k ≤ n ∧ 1 ≤ n ∧
      nearest (distance.units * one) rate.units.natAbs ≤ (k * one : Nat) := by
  obtain ⟨steps, hsteps, hfin, rfl⟩ := bound_eq_some h
  have hq := position?_div hd hr hr0
  have hq0 : 0 ≤ nearest (distance.units * one) rate.units.natAbs :=
    nearest_nonneg (Int.mul_nonneg hd0 (Int.natCast_nonneg _)) _
  obtain ⟨w, hw, hw0⟩ := ceil_nonneg hq (held_nonneg hq0)
  rw [greatest_zero hw hw0] at hsteps
  subst hsteps
  have htwice := (isFinite_of_add hfin).1
  have hceil := (isFinite_of_mul htwice).1
  have hunits := units_of_position? (isFinite_of_ceil hceil) hq
  obtain ⟨k, hk, hle⟩ := ceil_spec (hunits ▸ hq0) hceil
  -- Doubling is exact; adding one may round, but not below twice the ceiling, nor below one.
  have hsum := units_add hfin
  rw [units_mul_two htwice, hk, units_one] at hsum
  have hone : nearest one 1 ≤ nearest (2 * (k * one : Nat) + one) 1 := nearest_mono_units (by omega)
  rw [← units_one, nearest_units, units_one, ← hsum] at hone
  have hdouble : nearest (2 * (k * one : Nat)) 1 ≤ nearest (2 * (k * one : Nat) + one) 1 :=
    nearest_mono_units (by omega)
  rw [← hsum, ← hk, (onGrid_units _).two_mul.nearest_eq, hk] at hdouble
  rw [wholePart_eq (by omega)]
  refine ⟨k, ?_, ?_, hunits ▸ hle⟩
  · rw [Nat.le_div_iff_mul_le Binary64.one_pos, Nat.mul_assoc]
    omega
  · rw [Nat.le_div_iff_mul_le Binary64.one_pos]
    omega

theorem exists_bound (hd : distance.isFinite = true) (hsmall : distance ≤ ofNat (2 ^ 53))
    (hr : rate.isFinite = true) (hone : 1 ≤ rate) : ∃ n, bound distance rate = some n := by
  have hceil := ceil_le (Nat.le_refl _) (div_le (Nat.le_refl _) hd hsmall hr hone)
  have htwice : Between (0 * 2) (ofNat (2 ^ 53) * 2) ((distance / rate).ceil.greatest 0 * 2) :=
    (Between.greatest (.inr hceil) (by decide +kernel)).mul (.refl (by decide +kernel))
      (by decide +kernel)
  have hsteps : Between (0 * 2 + 1) (ofNat (2 ^ 53) * 2 + 1)
      ((distance / rate).ceil.greatest 0 * 2 + 1) :=
    htwice.add (.refl (by decide +kernel)) (by decide +kernel)
  have hfits := Binary64.lt_of_le_of_lt hsteps.high
    (show ofNat (2 ^ 53) * 2 + 1 < ofNat UInt64.size by decide +kernel)
  refine ⟨_, if_pos ?_⟩
  rw [hsteps.finite, decide_eq_true hfits]
  rfl

/-! ## What it covers -/

theorem nearest_covers {z : Int} (hz : 0 ≤ z) : 2 ^ 53 * z ≤ 2 ^ 53 * nearest z 1 + z := by
  obtain ⟨m, rfl⟩ := Int.eq_ofNat_of_zero_le hz
  have herr := (nearest_error (m : Int)).2
  rw [Int.natAbs_natCast] at herr
  rcases Nat.lt_or_ge m (2 ^ 52) with h | h
  · rw [nearest_of_dvd (by rw [Int.natAbs_natCast, gap_eq_one (by omega)]; exact Nat.one_dvd m)]
    omega
  · have := mul_gap_le h
    omega

/-- A rounded quotient that is not above `k` means that `k` divisors are about the dividend. -/
theorem quotient_covers {d r k : Nat} (hr : 0 < r) (h : roundUnits (d * one) r ≤ k * one) :
    2 ^ 53 * d ≤ 2 ^ 53 * (k * r) + r + d := by
  have herr := (roundUnits_error (d * one) hr).2
  have hk : roundUnits (d * one) r * r ≤ k * r * one := by
    calc roundUnits (d * one) r * r ≤ k * one * r := Nat.mul_le_mul_right r h
      _ = k * r * one := Nat.mul_right_comm k one r
  have hone : r * 2 ^ 53 ≤ r * one := by
    rw [one_eq]
    exact Nat.mul_le_mul_left r (Nat.pow_le_pow_right (by decide) (by decide))
  apply Nat.le_of_mul_le_mul_right _ Binary64.one_pos
  rw [Nat.add_mul, Nat.add_mul, Nat.mul_assoc, Nat.mul_assoc (2 ^ 53)]
  generalize one = o at *
  rcases Nat.lt_or_ge (d * o / r) (2 ^ 52) with hsmall | hlarge
  · rw [gap_eq_one (by omega), Nat.mul_one] at herr
    omega
  · have hgap : r * gap (d * o / r) * 2 ^ 52 ≤ d * o := by
      rw [Nat.mul_assoc, Nat.mul_comm (gap _)]
      exact Nat.le_trans (Nat.mul_le_mul_left r (mul_gap_le hlarge)) (Nat.mul_div_le _ _)
    omega

/-- **The bound covers the distance.** Seven sixths of the rate for every two iterations of it, and
half the rate for an odd one, reach over the whole exact distance. -/
theorem bound_covers {z : Int} (hz : 0 ≤ z) (hd : distance.isFinite = true)
    (hdz : distance.units = nearest z 1) (hr : rate.isFinite = true) (hr0 : 0 < rate.units)
    (h : bound distance rate = some n) :
    6 * z ≤ 7 * rate.units * (n / 2 : Nat) + 3 * rate.units * (n % 2 : Nat) := by
  have hd0 : 0 ≤ distance.units := hdz ▸ nearest_nonneg hz 1
  obtain ⟨k, hk, h1, hround⟩ := bound_spec hd hd0 hr hr0 h
  have hlost := nearest_covers hz
  rw [← hdz] at hlost
  obtain ⟨d, hd'⟩ := Int.eq_ofNat_of_zero_le hd0
  obtain ⟨r, hr'⟩ := Int.eq_ofNat_of_zero_le (Int.le_of_lt hr0)
  rw [hd', hr', Int.natAbs_natCast, ← Int.natCast_mul, nearest_natCast] at hround
  have hcover := quotient_covers (by omega) (Int.ofNat_le.1 hround)
  rw [hd'] at hlost
  rw [hr', Int.mul_assoc, Int.mul_assoc, ← Int.natCast_mul, ← Int.natCast_mul]
  have hmul : k * r ≤ r * (n / 2) := by
    rw [Nat.mul_comm]
    exact Nat.mul_le_mul_left r (by omega)
  rcases Nat.eq_zero_or_pos (n / 2) with hzero | hpos
  · obtain rfl : n = 1 := by omega
    simp only [show 1 / 2 = 0 from rfl, show 1 % 2 = 1 from rfl, Nat.mul_zero, Nat.mul_one] at hmul ⊢
    omega
  · have : r * 1 ≤ r * (n / 2) := Nat.mul_le_mul_left r hpos
    omega

end Barista.Rate
