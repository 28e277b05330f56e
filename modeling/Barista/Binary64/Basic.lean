/-
Double-precision numbers as exact quantities.

A finite double is a sign and a whole number of units of `2^-1074`, the
smallest positive double, so every exact sum, product and quotient is a
quotient of natural numbers, and the one place where anything is lost is
`Binary64.ofQuotient`, which rounds to the nearest double with ties to the
even significand. The order is read off `Binary64.position?`, where the
number stands on the line; NaN stands nowhere, so every comparison with it
fails. `roundUnits_representable` is what lets a rounded number be a double
at all.
-/

namespace Barista

/-! ## Rounding -/

/-- The quotient rounded to the nearest whole number, a half to the even neighbour. -/
def roundHalfEven (num den : Nat) : Nat :=
  let whole := num / den
  let rest := num % den
  if 2 * rest < den then whole
  else if den < 2 * rest then whole + 1
  else whole + whole % 2

theorem roundHalfEven_le (num den : Nat) : roundHalfEven num den ≤ num / den + 1 := by
  simp only [roundHalfEven]
  split
  · omega
  · split <;> omega

theorem le_roundHalfEven (num den : Nat) : num / den ≤ roundHalfEven num den := by
  simp only [roundHalfEven]
  split
  · omega
  · split <;> omega

theorem roundHalfEven_mul (whole : Nat) {den : Nat} (h : 0 < den) :
    roundHalfEven (whole * den) den = whole := by
  simp [roundHalfEven, Nat.mul_div_cancel _ h, h]

namespace Binary64

/-- Doubles near `units` have this many bits fewer than `units`: 53 bits are significant, and a
double is never less than a whole unit. -/
def spacing (units : Nat) : Nat := units.log2 - 52

/-- How far apart doubles near `units` lie, in units. -/
def gap (units : Nat) : Nat := Nat.pow 2 (spacing units)

/-- The unit is two to the power of minus this. -/
def unitPlaces : Nat := 1074

def one : Nat := Nat.pow 2 unitPlaces

/-- The units in `2^1024`, where the finite doubles end. -/
def limit : Nat := Nat.pow 2 (unitPlaces + 1024)

/-- What a finite double can hold: at most 53 significant bits, below the limit. -/
def Representable (units : Nat) : Prop := units < limit ∧ gap units ∣ units

/-- The nearest multiple of the gap to `num / den` units, ties to the even multiple. -/
def roundUnits (num den : Nat) : Nat :=
  let step := gap (num / den)
  roundHalfEven num (den * step) * step

theorem pow_two_pos (k : Nat) : 0 < Nat.pow 2 k := Nat.two_pow_pos k

theorem gap_pos (units : Nat) : 0 < gap units := pow_two_pos _

/-- Up to 53 bits, shifted, are a multiple of the gap that holds where they end up. -/
theorem gap_dvd_mul {q k : Nat} (hq : q ≤ Nat.pow 2 53) :
    gap (q * Nat.pow 2 k) ∣ q * Nat.pow 2 k := by
  simp only [gap, Nat.pow_eq] at *
  rcases Nat.eq_zero_or_pos q with rfl | hpos
  · simp
  rcases Nat.lt_or_eq_of_le hq with hlt | rfl
  · have hlog : (q * 2 ^ k).log2 < 53 + k := by
      rw [Nat.log2_lt (Nat.ne_of_gt (Nat.mul_pos hpos (Nat.two_pow_pos k))), Nat.pow_add]
      exact Nat.mul_lt_mul_of_pos_right hlt (Nat.two_pow_pos k)
    exact Nat.dvd_trans (Nat.pow_dvd_pow 2 (by simp only [spacing]; omega)) (Nat.dvd_mul_left _ _)
  · rw [← Nat.pow_add]
    apply Nat.pow_dvd_pow
    simp only [spacing, Nat.log2_two_pow]
    omega

theorem gap_roundUnits_dvd (num den : Nat) : gap (roundUnits num den) ∣ roundUnits num den := by
  apply gap_dvd_mul
  refine Nat.le_trans (roundHalfEven_le _ _) ?_
  rw [← Nat.div_div_eq_div_mul]
  have hlt : num / den < 2 ^ ((num / den).log2 + 1) := Nat.lt_log2_self
  have : num / den / gap (num / den) < 2 ^ 53 := by
    rw [Nat.div_lt_iff_lt_mul (gap_pos _)]
    simp only [gap, Nat.pow_eq]
    rw [← Nat.pow_add]
    refine Nat.lt_of_lt_of_le hlt (Nat.pow_le_pow_right (by decide) ?_)
    simp only [spacing]
    omega
  exact this

theorem roundUnits_representable {num den : Nat} (h : roundUnits num den < limit) :
    Representable (roundUnits num den) :=
  ⟨h, gap_roundUnits_dvd num den⟩

theorem one_pos : 0 < one := by
  unfold one
  exact pow_two_pos unitPlaces

theorem limit_pos : 0 < limit := by
  unfold limit
  exact pow_two_pos (unitPlaces + 1024)

-- No proof writes these two out: they have hundreds of digits.
attribute [irreducible] one limit

theorem representable_zero : Representable 0 := ⟨limit_pos, Nat.dvd_zero _⟩

end Binary64

/-! ## The type -/

/-- A double: not a number, an infinity, or a sign with a representable count of units of
`2^-1074`. -/
inductive Binary64 where
  | nan
  | infinity (negative : Bool)
  | finite (negative : Bool) (units : Nat) (valid : Binary64.Representable units)
deriving DecidableEq

namespace Binary64

/-- Zero of either sign. -/
def zero (negative : Bool) : Binary64 := .finite negative 0 representable_zero

instance : Inhabited Binary64 := ⟨zero false⟩

/-- The double nearest to `num / den` units with the given sign; from `2^1024` up it is infinite. -/
def ofQuotient (negative : Bool) (num den : Nat) : Binary64 :=
  if h : roundUnits num den < limit then
    .finite negative (roundUnits num den) (roundUnits_representable h)
  else .infinity negative

/-- The double nearest to a whole number. -/
def ofWhole (negative : Bool) (whole : Nat) : Binary64 := ofQuotient negative (whole * one) 1

def ofNat (n : Nat) : Binary64 := ofWhole false n

instance (n : Nat) : OfNat Binary64 n := ⟨ofNat n⟩

/-! ## Signs and kinds -/

def isNaN : Binary64 → Bool
  | .nan => true
  | _ => false

def isFinite : Binary64 → Bool
  | .finite .. => true
  | _ => false

def neg : Binary64 → Binary64
  | .nan => .nan
  | .infinity s => .infinity (!s)
  | .finite s n h => .finite (!s) n h

instance : Neg Binary64 := ⟨neg⟩

def abs : Binary64 → Binary64
  | .nan => .nan
  | .infinity _ => .infinity false
  | .finite _ n h => .finite false n h

/-! ## Order -/

/-- A count of units with its sign. -/
def signed (negative : Bool) (units : Nat) : Int := if negative then -(units : Int) else units

/-- Where the number stands on the line, in units; the infinities stand beyond all finite
numbers, both zeros stand at the origin, and NaN stands nowhere. -/
def position? : Binary64 → Option Int
  | .nan => none
  | .infinity s => some (signed s limit)
  | .finite s n _ => some (signed s n)

/-- Both numbers stand somewhere and their places are so related. -/
def related (r : Int → Int → Bool) (a b : Binary64) : Bool :=
  match a.position?, b.position? with
  | some x, some y => r x y
  | _, _ => false

instance : LT Binary64 := ⟨fun a b => related (fun x y => decide (x < y)) a b = true⟩

instance : LE Binary64 := ⟨fun a b => related (fun x y => decide (x ≤ y)) a b = true⟩

instance (a b : Binary64) : Decidable (a < b) :=
  inferInstanceAs (Decidable (related (fun x y => decide (x < y)) a b = true))

instance (a b : Binary64) : Decidable (a ≤ b) :=
  inferInstanceAs (Decidable (related (fun x y => decide (x ≤ y)) a b = true))

/-- The same number: the zeros agree, and NaN is the same as nothing. -/
def sameNumber (a b : Binary64) : Bool := related (fun x y => x == y) a b

/-- The smaller number; a NaN is passed over for the other one. -/
def least (a b : Binary64) : Binary64 :=
  if a.isNaN then b else if b < a then b else a

def greatest (a b : Binary64) : Binary64 :=
  if a.isNaN then b else if a < b then b else a

/-! ## Arithmetic -/

/-- The exact sum, rounded. A sum of zero is negative only if both terms are. -/
def add : Binary64 → Binary64 → Binary64
  | .nan, _ => .nan
  | _, .nan => .nan
  | .infinity s, .infinity t => if s = t then .infinity s else .nan
  | .infinity s, .finite .. => .infinity s
  | .finite .., .infinity t => .infinity t
  | .finite s m _, .finite t n _ =>
    let sum := signed s m + signed t n
    if sum = 0 then zero (s && t) else ofQuotient (sum < 0) sum.natAbs 1

instance : Add Binary64 := ⟨add⟩

instance : Sub Binary64 := ⟨fun a b => a + -b⟩

/-- The exact product, rounded; an infinity times zero is no number. -/
def mul : Binary64 → Binary64 → Binary64
  | .nan, _ => .nan
  | _, .nan => .nan
  | .infinity s, .infinity t => .infinity (s != t)
  | .infinity s, .finite t n _ => if n = 0 then .nan else .infinity (s != t)
  | .finite s m _, .infinity t => if m = 0 then .nan else .infinity (s != t)
  | .finite s m _, .finite t n _ => ofQuotient (s != t) (m * n) one

instance : Mul Binary64 := ⟨mul⟩

/-- The exact quotient, rounded; zero by zero and infinity by infinity are no numbers. -/
def div : Binary64 → Binary64 → Binary64
  | .nan, _ => .nan
  | _, .nan => .nan
  | .infinity _, .infinity _ => .nan
  | .infinity s, .finite t _ _ => .infinity (s != t)
  | .finite s _ _, .infinity t => zero (s != t)
  | .finite s m _, .finite t n _ =>
    if n = 0 then if m = 0 then .nan else .infinity (s != t)
    else ofQuotient (s != t) (m * one) n

instance : Div Binary64 := ⟨div⟩

/-! ## Whole numbers -/

/-- The number with its magnitude replaced by a whole one. -/
def mapWhole (f : Bool → Nat → Nat) : Binary64 → Binary64
  | .finite s n _ => ofWhole s (f s n)
  | x => x

def floor : Binary64 → Binary64 :=
  mapWhole fun negative units => if negative then (units + (one - 1)) / one else units / one

def ceil : Binary64 → Binary64 :=
  mapWhole fun negative units => if negative then units / one else (units + (one - 1)) / one

/-- The nearest whole number, a half away from zero. -/
def round : Binary64 → Binary64 :=
  mapWhole fun _ units => (2 * units + one) / (2 * one)

/-- Held between two bounds; NaN stays. -/
def clamp (x low high : Binary64) : Binary64 :=
  if x < low then low else if high < x then high else x

/-- The whole part of a positive finite number, and zero for any other. -/
def wholePart : Binary64 → Nat
  | .finite false n _ => n / one
  | _ => 0

end Binary64

end Barista
