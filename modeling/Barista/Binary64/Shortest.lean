/-
The shortest decimal that reads back as a given double.

The reals that round to a double form an interval around it, half a gap to
each side (a quarter below a power of two, where the gap changes),
with its ends if the significand is even. `grid` lays a decimal grid of
seventeen digits or more over it, fine enough that a point of it always lies
inside; the coarser grids are its multiples of powers of ten. `shortest` takes
the coarsest with a point inside. If any point of a grid lies in the interval
then one of the two neighbours of the double does, so these two are all it
looks at; of two hits it takes the nearer, and `Tie` says which when both are
equally near.
-/
import Barista.Binary64.Basic

namespace Barista.Binary64

/-- Which of two equally near decimals is taken. -/
inductive Tie where
  | upper
  | even
deriving DecidableEq

/-- The magnitude `coefficient * 10^exponent`. -/
structure Decimal where
  coefficient : Nat
  exponent : Int
deriving DecidableEq, Inhabited

/-- A positive double on a decimal grid: it lies `rest / den` beyond the point `below`, and the
points that read back as it are those from `first` to `last`. -/
structure Grid where
  exponent : Int
  first : Nat
  last : Nat
  below : Nat
  rest : Nat
  den : Nat

/-- The grid of the multiples of `10^exponent`. The interval is measured in quarters of the gap. -/
def grid (units : Nat) (exponent : Int) : Grid :=
  let e := spacing units
  let significand := units / gap units
  let up := Nat.pow 2 (e - (unitPlaces + 2)) * Nat.pow 10 (-exponent).toNat
  let den := Nat.pow 2 (unitPlaces + 2 - e) * Nat.pow 10 exponent.toNat
  let value := 4 * significand * up
  let low := value - (if significand = Nat.pow 2 52 ∧ 0 < e then 1 else 2) * up
  let high := value + 2 * up
  let closed := significand % 2 = 0
  { exponent, den
    first := if closed then (low + (den - 1)) / den else low / den + 1
    last := if closed then high / den else (high - 1) / den
    below := value / den
    rest := value % den }

/-- The multiple of `step` grid points that reads back: the nearer of the double's two neighbours
if both do. -/
def Grid.nearest? (tie : Tie) (g : Grid) (step : Nat) : Option Nat :=
  let below := g.below / step
  let above := below + 1
  let beyond := (g.below % step) * g.den + g.rest
  match decide (g.first ≤ below * step), decide (above * step ≤ g.last) with
  | false, false => none
  | true, false => some below
  | false, true => some above
  | true, true =>
    if 2 * beyond < step * g.den then some below
    else if step * g.den < 2 * beyond then some above
    else match tie with
      | .upper => some above
      | .even => some (below + below % 2)

/-- An exponent for which a double has seventeen or eighteen digits before the point of its grid:
the logarithm of two to five places is off by one at most. -/
def fineExponent (units : Nat) : Int :=
  ((units.log2 : Int) + 1 - unitPlaces) * 30103 / 100000 - 17

/-- The shortest decimal that reads back as a positive count of units. Seventeen digits always
do, so the search from one digit on finds one. -/
def shortest (tie : Tie) (units : Nat) : Decimal :=
  let g := grid units (fineExponent units)
  let digits := if g.below < Nat.pow 10 17 then 17 else 18
  let hit := (List.range digits).findSome? fun (k : Nat) =>
    let dropped := digits - 1 - k
    (g.nearest? tie (Nat.pow 10 dropped)).map fun n => Decimal.mk n (g.exponent + dropped)
  match hit with
  | some d => if d.coefficient = 10 then ⟨1, d.exponent + 1⟩ else d
  | none => ⟨0, 0⟩

end Barista.Binary64
