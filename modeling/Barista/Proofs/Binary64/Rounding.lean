/-
Rounding to doubles, on magnitudes.

`Binary64.roundUnits` gives the multiple of the gap nearest to a quotient of
units. Two facts carry everything that is said about arithmetic later:
`roundUnits_mono`, a larger quotient never rounds smaller, and
`roundUnits_mul_of_dvd`, what is representable is its own rounding. How far
rounding moves a number is `roundUnits_error`: half a gap at most.
-/
import Barista.Binary64.Basic
import Mathlib.Tactic.Ring

namespace Barista

/-! ## The nearest whole number -/

theorem roundHalfEven_cases (a d : Nat) :
    (roundHalfEven a d = a / d ∧ 2 * (a % d) ≤ d) ∨
      (roundHalfEven a d = a / d + 1 ∧ d ≤ 2 * (a % d)) := by
  simp only [roundHalfEven]
  split
  · exact .inl ⟨rfl, by omega⟩
  · split
    · exact .inr ⟨rfl, by omega⟩
    · rcases Nat.mod_two_eq_zero_or_one (a / d) with h | h <;> rw [h]
      · exact .inl ⟨rfl, by omega⟩
      · exact .inr ⟨rfl, by omega⟩

theorem roundHalfEven_error (a : Nat) {d : Nat} (hd : 0 < d) :
    2 * (roundHalfEven a d * d) ≤ 2 * a + d ∧ 2 * a ≤ 2 * (roundHalfEven a d * d) + d := by
  have hdm : a / d * d + a % d = a := by rw [Nat.mul_comm]; exact Nat.div_add_mod a d
  have hr := Nat.mod_lt a hd
  rcases roundHalfEven_cases a d with ⟨he, h⟩ | ⟨he, h⟩ <;> rw [he]
  · omega
  · rw [Nat.add_mul, Nat.one_mul]; omega

theorem div_le_div_of_mul_le {a d a' d' : Nat} (hd : 0 < d) (hd' : 0 < d') (h : a * d' ≤ a' * d) :
    a / d ≤ a' / d' := by
  rw [Nat.le_div_iff_mul_le hd']
  apply Nat.le_of_mul_le_mul_right _ hd
  calc a / d * d' * d = a / d * d * d' := Nat.mul_right_comm _ _ _
    _ ≤ a * d' := Nat.mul_le_mul_right d' (Nat.div_mul_le_self a d)
    _ ≤ a' * d := h

theorem roundHalfEven_mono {a d a' d' : Nat} (hd : 0 < d) (hd' : 0 < d') (h : a * d' ≤ a' * d) :
    roundHalfEven a d ≤ roundHalfEven a' d' := by
  have hle := div_le_div_of_mul_le hd hd' h
  rcases Nat.lt_or_eq_of_le hle with hlt | heq
  · have := roundHalfEven_le a d
    have := le_roundHalfEven a' d'
    omega
  -- The whole parts agree, so the rests are in the order of the quotients.
  have hrest : a % d * d' ≤ a' % d' * d := by
    have e : (a / d * d + a % d) * d' ≤ (a' / d' * d' + a' % d') * d := by
      rw [Nat.mul_comm (a / d), Nat.div_add_mod, Nat.mul_comm (a' / d'), Nat.div_add_mod]
      exact h
    rw [heq, Nat.add_mul, Nat.add_mul, Nat.mul_right_comm] at e
    omega
  simp only [roundHalfEven, heq]
  split
  · split
    · exact Nat.le_refl _
    · split <;> omega
  next h1 =>
  have h1' : d * d' ≤ 2 * (a % d * d') := by
    calc d * d' ≤ 2 * (a % d) * d' := Nat.mul_le_mul_right d' (Nat.le_of_not_lt h1)
      _ = 2 * (a % d * d') := Nat.mul_assoc _ _ _
  have hge : d' ≤ 2 * (a' % d') := by
    apply Nat.le_of_mul_le_mul_left _ hd
    calc d * d' ≤ 2 * (a' % d' * d) := by omega
      _ = d * (2 * (a' % d')) := by ring
  rw [if_neg (Nat.not_lt.2 hge)]
  split
  · next h2 =>
    have hgt : d' < 2 * (a' % d') := by
      apply Nat.lt_of_mul_lt_mul_left (a := d)
      calc d * d' < 2 * (a % d) * d' := Nat.mul_lt_mul_of_pos_right h2 hd'
        _ = 2 * (a % d * d') := Nat.mul_assoc _ _ _
        _ ≤ 2 * (a' % d' * d) := by omega
        _ = d * (2 * (a' % d')) := by ring
    rw [if_pos hgt]
  · split <;> omega

namespace Binary64

/-! ## The gap -/

theorem gap_eq (n : Nat) : gap n = 2 ^ (n.log2 - 52) := rfl

theorem log2_mono {m n : Nat} (h : m ≤ n) : m.log2 ≤ n.log2 := by
  rcases Nat.eq_zero_or_pos m with rfl | hm
  · simp
  · exact (Nat.le_log2 (by omega)).2 (Nat.le_trans (Nat.log2_self_le (by omega)) h)

theorem gap_dvd_gap {m n : Nat} (h : m ≤ n) : gap m ∣ gap n := by
  rw [gap_eq, gap_eq]
  have := log2_mono h
  exact Nat.pow_dvd_pow 2 (by omega)

theorem gap_mono {m n : Nat} (h : m ≤ n) : gap m ≤ gap n :=
  Nat.le_of_dvd (gap_pos n) (gap_dvd_gap h)

theorem gap_eq_one {n : Nat} (h : n < 2 ^ 53) : gap n = 1 := by
  rcases Nat.eq_zero_or_pos n with rfl | hn
  · rfl
  · have : n.log2 < 53 := (Nat.log2_lt (by omega)).2 h
    rw [gap_eq, show n.log2 - 52 = 0 by omega, Nat.pow_zero]

theorem lt_mul_gap (n : Nat) : n < 2 ^ 53 * gap n := by
  refine Nat.lt_of_lt_of_le (Nat.lt_log2_self (n := n)) ?_
  rw [gap_eq, ← Nat.pow_add]
  exact Nat.pow_le_pow_right (by decide) (by omega)

theorem mul_gap_le {n : Nat} (h : 2 ^ 52 ≤ n) : 2 ^ 52 * gap n ≤ n := by
  have hlog : 52 ≤ n.log2 := (Nat.le_log2 (by omega)).2 h
  rw [gap_eq, ← Nat.pow_add, show 52 + (n.log2 - 52) = n.log2 by omega]
  exact Nat.log2_self_le (by omega)

theorem gap_mul_gap (n : Nat) : gap (2 ^ 52 * gap n) = gap n := by
  rw [gap_eq, gap_eq, ← Nat.pow_add, Nat.log2_two_pow, Nat.add_sub_cancel_left]

/-- Where the gap is wider, the numbers are beyond `2^52` of the wider gaps. -/
theorem gap_lt_gap {m n : Nat} (h : gap m < gap n) :
    m < 2 ^ 52 * gap n ∧ 2 ^ 52 * gap n ≤ n ∧ 2 * gap m ≤ gap n := by
  have hlog : m.log2 - 52 < n.log2 - 52 := by
    rw [gap_eq, gap_eq] at h
    exact (Nat.pow_lt_pow_iff_right (by decide)).1 h
  have hn : 2 ^ 52 ≤ n := by
    refine (Nat.le_log2 ?_).1 (by omega)
    rintro rfl
    simp at hlog
  have htwice : 2 * gap m ≤ gap n := by
    rw [gap_eq, gap_eq, Nat.mul_comm, ← Nat.pow_succ]
    exact Nat.pow_le_pow_right (by decide) (by omega)
  have := lt_mul_gap m
  exact ⟨by omega, mul_gap_le hn, htwice⟩

/-! ## Rounding a quotient of units -/

theorem gap_dvd_roundUnits (num den : Nat) : gap (num / den) ∣ roundUnits num den :=
  Nat.dvd_mul_left _ _

/-- Rounding moves a quotient by half a gap at most. -/
theorem roundUnits_error (num : Nat) {den : Nat} (hden : 0 < den) :
    2 * (roundUnits num den * den) ≤ 2 * num + den * gap (num / den) ∧
      2 * num ≤ 2 * (roundUnits num den * den) + den * gap (num / den) := by
  have h := roundHalfEven_error num (Nat.mul_pos hden (gap_pos (num / den)))
  have e : roundUnits num den * den =
      roundHalfEven num (den * gap (num / den)) * (den * gap (num / den)) := by
    simp only [roundUnits]; ring
  rw [e]
  exact h

theorem roundUnits_mul_of_dvd {w den : Nat} (hden : 0 < den) (h : gap w ∣ w) :
    roundUnits (w * den) den = w := by
  obtain ⟨k, hk⟩ := h
  have hg := gap_pos w
  simp only [roundUnits, Nat.mul_div_cancel _ hden]
  rw [show w * den = k * (den * gap w) by rw [Nat.mul_left_comm, Nat.mul_comm k, ← hk, Nat.mul_comm],
    roundHalfEven_mul k (Nat.mul_pos hden hg), Nat.mul_comm, ← hk]

@[simp] theorem roundUnits_zero (den : Nat) : roundUnits 0 den = 0 := by
  simp only [roundUnits, roundHalfEven, Nat.zero_div, Nat.zero_mod]
  split
  · simp
  · split <;> simp_all

theorem le_roundUnits_of_gap {num den : Nat} (h : 2 ^ 52 * gap (num / den) ≤ num / den) :
    2 ^ 52 * gap (num / den) ≤ roundUnits num den := by
  refine Nat.mul_le_mul_right _ (Nat.le_trans ?_ (le_roundHalfEven _ _))
  rw [← Nat.div_div_eq_div_mul]
  exact (Nat.le_div_iff_mul_le (gap_pos _)).2 h

theorem roundUnits_le_mul_gap (num den : Nat) :
    roundUnits num den ≤ 2 ^ 53 * gap (num / den) := by
  refine Nat.mul_le_mul_right _ (Nat.le_trans (roundHalfEven_le _ _) ?_)
  rw [← Nat.div_div_eq_div_mul]
  exact (Nat.div_lt_iff_lt_mul (gap_pos _)).2 (lt_mul_gap _)

/-- **Monotonicity.** A larger quotient never rounds smaller. -/
theorem roundUnits_mono {a d a' d' : Nat} (hd : 0 < d) (hd' : 0 < d') (h : a * d' ≤ a' * d) :
    roundUnits a d ≤ roundUnits a' d' := by
  have hle := div_le_div_of_mul_le hd hd' h
  rcases Nat.lt_or_eq_of_le (gap_mono hle) with hlt | heq
  · -- A power of two stands between the two gaps, and no rounding crosses it.
    obtain ⟨-, hge, htwice⟩ := gap_lt_gap hlt
    calc roundUnits a d ≤ 2 ^ 53 * gap (a / d) := roundUnits_le_mul_gap a d
      _ ≤ 2 ^ 52 * gap (a' / d') := by omega
      _ ≤ roundUnits a' d' := le_roundUnits_of_gap hge
  · simp only [roundUnits, heq]
    have hg := gap_pos (a' / d')
    refine Nat.mul_le_mul_right _ (roundHalfEven_mono (Nat.mul_pos hd hg) (Nat.mul_pos hd' hg) ?_)
    rw [← Nat.mul_assoc, ← Nat.mul_assoc]
    exact Nat.mul_le_mul_right _ h

end Binary64

end Barista
