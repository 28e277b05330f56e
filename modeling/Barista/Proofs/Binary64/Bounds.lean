/-
Numbers between two others.

`Between l h x` says that `x` lies between two finite numbers. Bounds are
carried through a computation by the rules of its operations, and the bounds
themselves are computed, so each rule asks for one closed fact about them.
-/
import Barista.Proofs.Binary64.Whole

namespace Barista.Binary64

/-- Between two finite numbers, the ends included. -/
structure Between (l h x : Binary64) : Prop where
  low : l ≤ x
  high : x ≤ h
  low_finite : l.isFinite = true
  high_finite : h.isFinite = true

namespace Between

variable {l h x l' h' x' : Binary64}

theorem finite (b : Between l h x) : x.isFinite = true :=
  isFinite_of_le_of_le b.low_finite b.high_finite b.low b.high

theorem units_le (b : Between l h x) : l.units ≤ x.units ∧ x.units ≤ h.units :=
  ⟨(le_iff_units b.low_finite b.finite).1 b.low, (le_iff_units b.finite b.high_finite).1 b.high⟩

/-- Wider bounds. What is asked of bounds, here and below, is one closed fact about constants. -/
theorem weaken (b : Between l h x)
    (hb : l' ≤ l ∧ h ≤ h' ∧ l'.isFinite = true ∧ h'.isFinite = true) : Between l' h' x :=
  ⟨Binary64.le_trans hb.1 b.low, Binary64.le_trans b.high hb.2.1, hb.2.2.1, hb.2.2.2⟩

theorem refl (hx : x.isFinite = true) : Between x x x := by
  have := Binary64.le_refl hx
  exact ⟨this, this, hx, hx⟩

theorem of_positions {z zl zh : Int} (hl : l.position? = some zl) (hx : x.position? = some z)
    (hh : h.position? = some zh) (hlz : zl ≤ z) (hzh : z ≤ zh)
    (hb : l.isFinite = true ∧ h.isFinite = true) : Between l h x :=
  ⟨le_iff.2 ⟨zl, z, hl, hx, hlz⟩, le_iff.2 ⟨z, zh, hx, hh, hzh⟩, hb.1, hb.2⟩

theorem add (b : Between l h x) (b' : Between l' h' x')
    (hb : (l + l').isFinite = true ∧ (h + h').isFinite = true) :
    Between (l + l') (h + h') (x + x') := by
  have := b.units_le
  have := b'.units_le
  exact of_positions (position?_add b.low_finite b'.low_finite) (position?_add b.finite b'.finite)
    (position?_add b.high_finite b'.high_finite) (held_mono (nearest_mono_units (by omega)))
    (held_mono (nearest_mono_units (by omega))) hb

theorem add_ite {c : Prop} [Decidable c] (b : Between l h x) (b' : c → Between l' h' x')
    (hb : l ≤ l + l' ∧ h ≤ h + h' ∧ (l + l').isFinite = true ∧ (h + h').isFinite = true) :
    Between l (h + h') (if c then x + x' else x) := by
  obtain ⟨hl, hh, fl, fh⟩ := hb
  split
  · next hc => exact (b.add (b' hc) ⟨fl, fh⟩).weaken ⟨hl, Binary64.le_refl fh, b.low_finite, fh⟩
  · exact b.weaken ⟨Binary64.le_refl b.low_finite, hh, b.low_finite, fh⟩

theorem sub (b : Between l h x) (b' : Between l' h' x')
    (hb : (l - h').isFinite = true ∧ (h - l').isFinite = true) :
    Between (l - h') (h - l') (x - x') := by
  have := b.units_le
  have := b'.units_le
  exact of_positions (position?_sub b.low_finite b'.high_finite) (position?_sub b.finite b'.finite)
    (position?_sub b.high_finite b'.low_finite) (held_mono (nearest_mono_units (by omega)))
    (held_mono (nearest_mono_units (by omega))) hb

theorem mul (b : Between l h x) (b' : Between l' h' x')
    (hb : 0 ≤ l.units ∧ 0 ≤ l'.units ∧ (l * l').isFinite = true ∧ (h * h').isFinite = true) :
    Between (l * l') (h * h') (x * x') := by
  obtain ⟨hl, hl', hb⟩ := hb
  obtain ⟨h1, h2⟩ := b.units_le
  obtain ⟨h3, h4⟩ := b'.units_le
  have low : l.units * l'.units ≤ x.units * x'.units :=
    Int.mul_le_mul h1 h3 hl' (Int.le_trans hl h1)
  have high : x.units * x'.units ≤ h.units * h'.units :=
    Int.mul_le_mul h2 h4 (Int.le_trans hl' h3) (Int.le_trans hl (Int.le_trans h1 h2))
  have hone : (0 : Int) ≤ one := Int.natCast_nonneg _
  exact of_positions (position?_mul b.low_finite b'.low_finite) (position?_mul b.finite b'.finite)
    (position?_mul b.high_finite b'.high_finite)
    (held_mono (nearest_mono one_pos one_pos (Int.mul_le_mul_of_nonneg_right low hone)))
    (held_mono (nearest_mono one_pos one_pos (Int.mul_le_mul_of_nonneg_right high hone))) hb

theorem div (b : Between l h x) {d : Binary64} (hb : d.isFinite = true ∧ 0 < d.units ∧
    (l / d).isFinite = true ∧ (h / d).isFinite = true) : Between (l / d) (h / d) (x / d) := by
  obtain ⟨fd, hd, hb⟩ := hb
  obtain ⟨h1, h2⟩ := b.units_le
  have hone : (0 : Int) ≤ one := Int.natCast_nonneg _
  have hd' : 0 < d.units.natAbs := by omega
  have mono : ∀ {y z : Int}, y ≤ z →
      nearest (y * one) d.units.natAbs ≤ nearest (z * one) d.units.natAbs := fun h =>
    nearest_mono hd' hd' (Int.mul_le_mul_of_nonneg_right
      (Int.mul_le_mul_of_nonneg_right h hone) (Int.natCast_nonneg _))
  exact of_positions (position?_div b.low_finite fd hd) (position?_div b.finite fd hd)
    (position?_div b.high_finite fd hd) (held_mono (mono h1)) (held_mono (mono h2)) hb

theorem round (b : Between l h x)
    (hb : 0 ≤ l.units ∧ l.round.isFinite = true ∧ h.round.isFinite = true) :
    Between l.round h.round x.round := by
  obtain ⟨hl, hb⟩ := hb
  obtain ⟨h1, h2⟩ := b.units_le
  have hmono : ∀ {m n : Nat}, m ≤ n → nearest ((2 * m + one) / (2 * one) * one : Nat) 1 ≤
      nearest ((2 * n + one) / (2 * one) * one : Nat) 1 := fun hmn =>
    nearest_mono_units (Int.ofNat_le.2 (Nat.mul_le_mul_right one (Nat.div_le_div_right (by omega))))
  exact of_positions (position?_round b.low_finite hl) (position?_round b.finite (by omega))
    (position?_round b.high_finite (by omega)) (held_mono (hmono (by omega)))
    (held_mono (hmono (by omega))) hb

/-- A term that takes neither bound outside keeps a number between them. -/
theorem add_of_le (b : Between l h x) (hf : x'.isFinite = true)
    (hl : l.units ≤ nearest (l.units + x'.units) 1)
    (hh : nearest (h.units + x'.units) 1 ≤ h.units) : Between l h (x + x') := by
  obtain ⟨h1, h2⟩ := b.units_le
  have hlo := held_mono (Int.le_trans hl (nearest_mono_units (Int.add_le_add_right h1 x'.units)))
  have hhi := held_mono (Int.le_trans (nearest_mono_units (Int.add_le_add_right h2 x'.units)) hh)
  rw [held_of_lt (units_lt l).1 (units_lt l).2] at hlo
  rw [held_of_lt (units_lt h).1 (units_lt h).2] at hhi
  exact of_positions (position?_eq_units b.low_finite) (position?_add b.finite hf)
    (position?_eq_units b.high_finite) hlo hhi ⟨b.low_finite, b.high_finite⟩

variable {top bottom : Binary64}

/-- Held to a bound from above; what is no number comes to the bound. -/
theorem least (hx : x.isNaN = true ∨ l ≤ x)
    (hb : l ≤ top ∧ l.isFinite = true ∧ top.isFinite = true) : Between l top (x.least top) := by
  obtain ⟨hl, fl, ftop⟩ := hb
  have hself := Binary64.le_refl ftop
  unfold Binary64.least
  cases hnan : x.isNaN with
  | true => exact ⟨hl, hself, fl, ftop⟩
  | false =>
    have hlow : l ≤ x := hx.resolve_left (by simp [hnan])
    rw [if_neg (by decide)]
    split
    · exact ⟨hl, hself, fl, ftop⟩
    · next hlt =>
      exact ⟨hlow, (Binary64.lt_or_le (isNaN_of_isFinite ftop) hnan).resolve_left hlt, fl, ftop⟩

theorem greatest (hx : x.isNaN = true ∨ x ≤ h)
    (hb : bottom ≤ h ∧ bottom.isFinite = true ∧ h.isFinite = true) :
    Between bottom h (x.greatest bottom) := by
  obtain ⟨hh, fbottom, fh⟩ := hb
  have hself := Binary64.le_refl fbottom
  unfold Binary64.greatest
  cases hnan : x.isNaN with
  | true => exact ⟨hself, hh, fbottom, fh⟩
  | false =>
    have hhigh : x ≤ h := hx.resolve_left (by simp [hnan])
    rw [if_neg (by decide)]
    split
    · exact ⟨hself, hh, fbottom, fh⟩
    · next hlt =>
      exact ⟨(Binary64.lt_or_le hnan (isNaN_of_isFinite fbottom)).resolve_left hlt, hhigh, fbottom, fh⟩

theorem clamp_eq (b : Between l h x) : x.clamp l h = x := by
  unfold clamp
  rw [if_neg (Binary64.not_lt_of_le b.low), if_neg (Binary64.not_lt_of_le b.high)]

theorem ofNat {a n b : Nat} (ha : a ≤ n) (hb : n ≤ b) (h : b ≤ 2 ^ 53) :
    Between (.ofNat a) (.ofNat b) (.ofNat n) := by
  obtain ⟨fa, ea⟩ := ofNat_spec (show a ≤ 2 ^ 53 by omega)
  obtain ⟨fn, en⟩ := ofNat_spec (show n ≤ 2 ^ 53 by omega)
  obtain ⟨fb, eb⟩ := ofNat_spec h
  refine ⟨(le_iff_units fa fn).2 ?_, (le_iff_units fn fb).2 ?_, fa, fb⟩
  · rw [ea, en]
    exact Int.ofNat_le.2 (Nat.mul_le_mul_right one ha)
  · rw [en, eb]
    exact Int.ofNat_le.2 (Nat.mul_le_mul_right one hb)

end Between

end Barista.Binary64
