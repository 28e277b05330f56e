/-
Two jumps of its whole time end a brew.

The loop that moves the clock on has no bound of its own; `BrewTimer.Driven`
is what it does, jump by jump. The first jump falls short where rounding the
time to nanoseconds took something away. The second cannot: twice the rounded
time has more whole seconds in it than the brew takes, if that is a second or
more (`le_seconds_twice`), so the loop ends after one jump or two, wherever
it starts (`driven_started`), and a limit of two is none. A machine's brew
time is such a time, whatever its temperature is (`Machine.brewTime_between`).
-/
import Barista.Machine.Basic
import Barista.Proofs.Binary64.Bounds

namespace Barista

namespace BrewTimer

open Binary64

/-! ## Seconds -/

theorem fraction_between (n : Nat) : Between (Binary64.ofNat 0 / 1000000000)
    (Binary64.ofNat 999999999 / 1000000000) (Binary64.ofNat (n % 1000000000) / 1000000000) := by
  have hrest : Between (Binary64.ofNat 0) (Binary64.ofNat 999999999)
      (Binary64.ofNat (n % 1000000000)) := .ofNat (by omega) (by omega) (by decide)
  exact hrest.div (d := 1000000000) (by decide +kernel)

theorem isNaN_seconds (n : Nat) : (seconds n).isNaN = false :=
  isNaN_add (isNaN_ofQuotient ..) (fraction_between n).finite

theorem ofNat_le_seconds {n : Nat} (h : n / 1000000000 ≤ 2 ^ 53) :
    Binary64.ofNat (n / 1000000000) ≤ seconds n := by
  have hfraction := fraction_between n
  have hnonneg := hfraction.units_le.1
  rw [show (Binary64.ofNat 0 / 1000000000).units = 0 by decide +kernel] at hnonneg
  exact le_add (ofNat_spec h).1 hfraction.finite hnonneg

theorem le_twice {n u second : Nat} (hlow : second ≤ u)
    (herr : 2 * (1000000000 * u) ≤ 2 * (n * second) + second) :
    u ≤ 2 * n / 1000000000 * second := by
  generalize hk : 2 * n / 1000000000 = k
  have hn : 2 * n + 1 ≤ 1000000000 * (k + 1) := by omega
  have hmul := Nat.mul_le_mul_right second hn
  rw [Nat.add_mul, Nat.mul_assoc, Nat.mul_assoc, Nat.add_mul] at hmul
  omega

theorem twice_le {n u second most : Nat} (hpos : 0 < second) (hhigh : u ≤ most * second)
    (herr : 2 * (n * second) ≤ 2 * (1000000000 * u) + second) :
    2 * n ≤ 2 * (1000000000 * most) + 1 := by
  apply Nat.le_of_mul_le_mul_right _ hpos
  rw [Nat.add_mul, Nat.mul_assoc, Nat.mul_assoc, Nat.mul_assoc]
  omega

theorem nanoseconds_error (u : Nat) (v : Representable u) :
    2 * (nanoseconds (.finite false u v) * one) ≤ 2 * (1000000000 * u) + one ∧
      2 * (1000000000 * u) ≤ 2 * (nanoseconds (.finite false u v) * one) + one := by
  rw [nanoseconds, Nat.mul_comm 1000000000]
  exact roundHalfEven_error _ Binary64.one_pos

/-- **A positive time in nanoseconds is the whole number nearest to it.** -/
theorem nanoseconds_near {total : Binary64} (hf : total.isFinite = true) (hpos : 0 < total.units) :
    |(nanoseconds total : ℚ) - 10 ^ 9 * total.value| ≤ 1 / 2 := by
  obtain ⟨u, v, rfl⟩ := exists_finite_of_pos hf hpos
  obtain ⟨hless, hmore⟩ := nanoseconds_error u v
  have hone : (0 : ℚ) < (one : ℕ) := Nat.cast_pos.2 Binary64.one_pos
  have hvalue : (finite false u v).value = (u : ℚ) / (one : ℕ) := by
    rw [value, show (finite false u v).units = (u : ℤ) from rfl, Int.cast_natCast]
  generalize nanoseconds (.finite false u v) = n at hless hmore ⊢
  rw [← @Nat.cast_le ℚ] at hless hmore
  push_cast at hless hmore
  have hunits : 10 ^ 9 * ((u : ℚ) / (one : ℕ)) * (one : ℕ) = 1000000000 * u := by
    rw [mul_assoc, div_mul_cancel₀ _ hone.ne']
    norm_num
  rw [hvalue, abs_le]
  constructor
  · apply le_of_mul_le_mul_right _ hone
    linarith
  · apply le_of_mul_le_mul_right _ hone
    linarith

theorem nanoseconds_le {total : Binary64} {most : Nat} (hf : total.isFinite = true)
    (hpos : 0 < total.units) (hmost : total.units ≤ (most * one : Nat)) :
    nanoseconds total ≤ 1000000000 * most := by
  obtain ⟨u, v, rfl⟩ := exists_finite_of_pos hf hpos
  obtain ⟨hless, -⟩ := nanoseconds_error u v
  have := twice_le Binary64.one_pos (Int.ofNat_le.1 hmost) hless
  omega

theorem le_seconds_twice {total : Binary64} (hf : total.isFinite = true)
    (hlow : (one : Int) ≤ total.units) (hhigh : total.units ≤ (2 ^ 40 * one : Nat)) :
    total ≤ seconds (2 * nanoseconds total) := by
  obtain ⟨u, v, rfl⟩ := exists_finite_of_pos hf
    (Int.lt_of_lt_of_le (Int.natCast_pos.2 Binary64.one_pos) hlow)
  obtain ⟨hless, hmore⟩ := nanoseconds_error u v
  have hsmall : 2 * nanoseconds (.finite false u v) / 1000000000 ≤ 2 * 2 ^ 40 + 1 := by
    have := twice_le Binary64.one_pos (Int.ofNat_le.1 hhigh) hless
    omega
  have hcovers := le_twice (Int.ofNat_le.1 hlow) hmore
  obtain ⟨fk, ek⟩ := ofNat_spec (show _ ≤ 2 ^ 53 from Nat.le_trans hsmall (by decide))
  refine Binary64.le_trans ((le_iff_units rfl fk).2 ?_)
    (ofNat_le_seconds (Nat.le_trans hsmall (by decide)))
  rw [ek]
  exact Int.ofNat_le.2 hcovers

/-! ## Driving the timer -/

/-- From `now` on the clock is moved on by `step` for as long as the timer runs, with no limit: so
many jumps, and the timer that is left. -/
inductive Driven (step : Nat) : Nat → BrewTimer → Nat → BrewTimer → Prop
  | ended {now t} (stop : t.running = false) : Driven step now t 0 t
  | jumped {now t jumps last} (go : t.running = true)
      (rest : Driven step (now + step) (t.update (now + step)) jumps last) :
      Driven step now t (jumps + 1) last

namespace Driven

variable {step now jumps jumps' : Nat} {t last last' : BrewTimer}

theorem unique (h : Driven step now t jumps last) (h' : Driven step now t jumps' last') :
    jumps = jumps' ∧ last = last' := by
  induction h generalizing jumps' with
  | ended stop =>
    cases h' with
    | ended _ => exact ⟨rfl, rfl⟩
    | jumped go _ => rw [stop] at go; cases go
  | jumped go _ ih =>
    cases h' with
    | ended stop => rw [stop] at go; cases go
    | jumped _ rest =>
      obtain ⟨rfl, rfl⟩ := ih rest
      exact ⟨rfl, rfl⟩

theorem drive_eq (h : Driven step now t jumps last) {limit : Nat} (hlimit : jumps ≤ limit) :
    t.drive step limit now = last := by
  induction h generalizing limit with
  | ended stop =>
    cases limit with
    | zero => rfl
    | succ limit => rw [drive, stop, if_neg (by decide)]
  | jumped go _ ih =>
    cases limit with
    | zero => exact absurd hlimit (Nat.not_succ_le_zero _)
    | succ limit => rw [drive, if_pos go, ih (Nat.le_of_succ_le_succ hlimit)]

end Driven

theorem update_running (elapsed total : Binary64) (start now : Nat) :
    (BrewTimer.mk true elapsed total (some start)).update now =
      if total ≤ (seconds (now - start)).least total then ⟨false, total, total, none⟩
      else ⟨true, (seconds (now - start)).least total, total, some start⟩ := by
  simp only [update, if_true, complete]

theorem le_least {total passed : Binary64} (hf : total.isFinite = true) (h : total ≤ passed) :
    total ≤ passed.least total := by
  have hself := Binary64.le_refl hf
  unfold least
  split
  · exact hself
  · split
    · exact hself
    · exact h

theorem update_short {elapsed total : Binary64} {start now : Nat}
    (h : seconds (now - start) < total) :
    (BrewTimer.mk true elapsed total (some start)).update now =
      ⟨true, seconds (now - start), total, some start⟩ := by
  have hleast : (seconds (now - start)).least total = seconds (now - start) := by
    rw [least, isNaN_seconds, if_neg (by decide),
      if_neg (Binary64.not_lt_of_le (Binary64.le_of_lt h))]
  rw [update_running, hleast, if_neg fun hover => Binary64.not_lt_of_le hover h]

theorem update_over {elapsed total : Binary64} {start now : Nat} (hf : total.isFinite = true)
    (h : total ≤ seconds (now - start)) :
    (BrewTimer.mk true elapsed total (some start)).update now = ⟨false, total, total, none⟩ := by
  rw [update_running, if_pos (le_least hf h)]

/-- **A brew is over after two jumps at most.** How many there are does not depend on where the
clock stands, and the timer is ended at its whole time. -/
theorem driven_started {total : Binary64} (hf : total.isFinite = true)
    (hlow : (one : Int) ≤ total.units) (hhigh : total.units ≤ (2 ^ 40 * one : Nat)) :
    ∃ jumps, (jumps = 1 ∨ jumps = 2) ∧ ∀ now,
      Driven (nanoseconds total) now (started total now) jumps (started total now).complete := by
  have hover := le_seconds_twice hf hlow hhigh
  generalize nanoseconds total = jump at hover ⊢
  by_cases honce : total ≤ (seconds jump).least total
  · refine ⟨1, .inl rfl, fun now => .jumped rfl ?_⟩
    rw [started, update_running, Nat.add_sub_cancel_left, if_pos honce]
    exact .ended rfl
  · refine ⟨2, .inr rfl, fun now => .jumped rfl ?_⟩
    rw [started, update_running, Nat.add_sub_cancel_left, if_neg honce]
    refine .jumped rfl ?_
    rw [show 2 * jump = now + jump + jump - now by omega] at hover
    rw [update_over hf hover]
    exact .ended rfl

theorem run_eq_complete {total : Binary64} (hf : total.isFinite = true)
    (hlow : (one : Int) ≤ total.units) (hhigh : total.units ≤ (2 ^ 40 * one : Nat)) (now : Nat) :
    run total now = (started total now).complete := by
  obtain ⟨jumps, htwo, hdriven⟩ := driven_started hf hlow hhigh
  exact (hdriven now).drive_eq (by omega)

end BrewTimer

/-! ## The time of a brew -/

open Binary64

theorem Count.between_ofNat (c : Count) :
    Between (Binary64.ofNat 0) (Binary64.ofNat 4294967295) (Binary64.ofNat c.toNat) := by
  have hlt := c.toNat_lt
  exact .ofNat (Nat.zero_le _) (by omega) (by decide)

namespace Machine

theorem wear_time_between {wear : Binary64} (hslow : 50 < wear) (hle : wear ≤ 100) :
    Between 5 10 (wear * 0.1) := by
  have htenth : Between 0.1 0.1 0.1 := .refl (by decide +kernel)
  have hpercent : Between 50 100 wear :=
    ⟨Binary64.le_of_lt hslow, hle, by decide +kernel, by decide +kernel⟩
  exact (hpercent.mul htenth (by decide +kernel)).weaken (by decide +kernel)

/-- **A brew takes fifteen seconds or more**, and no longer than the most sugar makes it, on any
machine whose wear is at most 100 where it slows the brew. -/
theorem brewTime_between {m : Machine} (hwear : 50 < m.wear → m.wear ≤ 100) (drink : Drink)
    (sugar : Count) : Between 15 2147483700 (m.brewTime drink sugar) := by
  have hbase : Between 15 28 (baseBrewTime + drink.brewBonus) := by
    cases drink <;> exact ⟨by decide +kernel, by decide +kernel, by decide +kernel, by decide +kernel⟩
  have hsugar : Between 0 2147483648 (Binary64.ofNat sugar.toNat * 0.5) := by
    have hhalf : Between 0.5 0.5 0.5 := .refl (by decide +kernel)
    exact (sugar.between_ofNat.mul hhalf (by decide +kernel)).weaken (by decide +kernel)
  have hworn : 50 < m.wear → Between 5 10 (m.wear * 0.1) := fun hslow =>
    wear_time_between hslow (hwear hslow)
  have hcold : Between 2 2 2 := .refl (by decide +kernel)
  have hten : Between 10 10 10 := .refl (by decide +kernel)
  have hsweet := hbase.add_ite (c := 0 < sugar) (fun _ => hsugar) (by decide +kernel)
  have hslow := hsweet.add_ite (c := 50 < m.wear) hworn (by decide +kernel)
  have htime := hslow.add_ite (c := m.temperature < 90 ∨ 98 < m.temperature) (fun _ => hcold)
    (by decide +kernel)
  have htenths := (htime.mul hten (by decide +kernel)).round (by decide +kernel)
  exact (htenths.div (d := 10) (by decide +kernel)).weaken (by decide +kernel)

/-- Wear that does not break a machine is at most 100 where it slows the brew, even if it is no
number. -/
theorem wear_le_of_not_broken {m : Machine} (h : m.isBroken = false) (hslow : 50 < m.wear) :
    m.wear ≤ 100 := by
  obtain ⟨-, wear, -, hwear, -⟩ := lt_iff.1 hslow
  have hhundred : (100 : Binary64).position? = some (100 : Binary64).units :=
    position?_eq_units (by decide +kernel)
  rcases Int.le_total wear (100 : Binary64).units with hle | hge
  · exact le_iff.2 ⟨_, _, hwear, hhundred, hle⟩
  · exact absurd (le_iff.2 ⟨_, _, hhundred, hwear, hge⟩) (of_decide_eq_false h)

theorem brewTime_units {m : Machine} (hwear : 50 < m.wear → m.wear ≤ 100) (drink : Drink)
    (sugar : Count) : (one : Int) ≤ (m.brewTime drink sugar).units ∧
      (m.brewTime drink sugar).units ≤ (2 ^ 40 * one : Nat) := by
  obtain ⟨hlow, hhigh⟩ := (brewTime_between hwear drink sugar).units_le
  have hfifteen : (one : Int) ≤ (15 : Binary64).units := by decide +kernel
  have hmost : (2147483700 : Binary64).units ≤ (2 ^ 40 * one : Nat) := by decide +kernel
  exact ⟨Int.le_trans hfifteen hlow, Int.le_trans hhigh hmost⟩

theorem run_brewTime {m : Machine} (hwear : 50 < m.wear → m.wear ≤ 100) (drink : Drink)
    (sugar : Count) (now : Nat) : BrewTimer.run (m.brewTime drink sugar) now =
      ⟨false, m.brewTime drink sugar, m.brewTime drink sugar, none⟩ := by
  obtain ⟨hlow, hhigh⟩ := brewTime_units hwear drink sugar
  exact BrewTimer.run_eq_complete (brewTime_between hwear drink sugar).finite hlow hhigh now

end Machine

end Barista
