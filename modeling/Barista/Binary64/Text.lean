/-
Doubles as text, in three forms.

`Binary64.plain` writes the shortest digits that read back and no power of
ten, whatever the size. `Binary64.fixed` rounds the exact value to a number of
places, a half to the even neighbour. `Binary64.json?` writes the shortest
digits as a JSON number, with a power of ten for the very small and the very
large. The sign of zero is kept in all three.
-/
import Barista.Binary64.Shortest
import Barista.Text.Columns

namespace Barista.Binary64

def sign (negative : Bool) : String := if negative then "-" else ""

/-- Digits with a point after the first `places` of them, zeros filled in where there are none. -/
def pointed (digits : String) (places : Int) : String :=
  let count := digits.length
  if (count : Int) ≤ places then digits ++ Text.repeated '0' (places - count).toNat
  else if 0 < places then
    String.ofList (digits.toList.take places.toNat) ++ "." ++
      String.ofList (digits.toList.drop places.toNat)
  else "0." ++ Text.repeated '0' (-places).toNat ++ digits

/-- A decimal without a power of ten. -/
def Decimal.plain (d : Decimal) : String :=
  let digits := toString d.coefficient
  pointed digits (digits.length + d.exponent)

/-- The shortest digits that read back, without a power of ten; the upper of two equally near. -/
def plain : Binary64 → String
  | .nan => "NaN"
  | .infinity negative => sign negative ++ "inf"
  | .finite negative units _ =>
    sign negative ++ if units = 0 then "0" else (shortest .upper units).plain

/-- A whole number of the last place, with its last `places` digits after a point. -/
def fixedPoint (places whole : Nat) : String :=
  if places = 0 then toString whole
  else
    let digits := toString whole
    let padded := Text.repeated '0' (places + 1 - digits.length) ++ digits
    pointed padded ((padded.length : Int) - places)

/-- The exact value rounded to a number of places, a half to the even neighbour. -/
def fixed (places : Nat) : Binary64 → String
  | .nan => "NaN"
  | .infinity negative => sign negative ++ "inf"
  | .finite negative units _ =>
    sign negative ++ fixedPoint places (roundHalfEven (units * Nat.pow 10 places) one)

/-- A decimal as a JSON number: positional from `1e-5` up to `1e16`, and otherwise one digit, the
rest after a point, and a power of ten with its sign. -/
def Decimal.json (d : Decimal) : String :=
  let digits := toString d.coefficient
  let places := (digits.length : Int) + d.exponent
  if -5 < places ∧ places ≤ 16 then
    if (digits.length : Int) ≤ places then pointed digits places ++ ".0" else pointed digits places
  else
    let power := places - 1
    pointed digits 1 ++ "e" ++ (if power < 0 then "-" else "+") ++ toString power.natAbs

/-- A JSON number, if the number is finite; the even one of two equally near. -/
def json? : Binary64 → Option String
  | .finite negative units _ =>
    some (sign negative ++ if units = 0 then "0.0" else (shortest .even units).json)
  | _ => none

end Barista.Binary64
