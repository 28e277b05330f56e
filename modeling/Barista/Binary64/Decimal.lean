/-
Doubles from decimals: the double nearest to a decimal number, and the
texts that stand for one.

A text is a sign or none, then `inf`, `infinity` or `nan` in any case, or
digits with at most one point among them and perhaps a power of ten. There
is no white space, no separator and no other base.
-/
import Barista.Binary64.Basic
import Barista.Text.Numeral

namespace Barista.Binary64

/-- The double nearest to `digits * 10^exponent`. Far outside the range of doubles the answer
is an infinity or a zero, without the power being worked out. -/
def ofDecimal (negative : Bool) (digits : Nat) (exponent : Int) : Binary64 :=
  if digits = 0 then zero negative
  else if 0 ≤ exponent then
    if 400 < exponent then .infinity negative
    else ofQuotient negative (digits * Nat.pow 10 exponent.toNat * one) 1
  else
    if (digits.log2 : Int) + 400 < -exponent then zero negative
    else ofQuotient negative (digits * one) (Nat.pow 10 (-exponent).toNat)

instance : OfScientific Binary64 :=
  ⟨fun digits down exponent =>
    ofDecimal false digits (if down then -(exponent : Int) else exponent)⟩

/-! ## Reading -/

/-- The power of ten at the end of a number: nothing at all, or `e` and a whole number. -/
def readExponent? : List Char → Option Int
  | [] => some 0
  | c :: rest => if c = 'e' || c = 'E' then Text.integer? rest else none

/-- Digits with at most one point among them, and perhaps a power of ten. -/
def readDecimal? (negative : Bool) (cs : List Char) : Option Binary64 :=
  let (whole, rest) := cs.span Char.isDigit
  let (fraction, rest) := match rest with
    | '.' :: rest => rest.span Char.isDigit
    | rest => ([], rest)
  if whole.isEmpty && fraction.isEmpty then none
  else (readExponent? rest).map fun exponent =>
    ofDecimal negative (Text.digitsValue (whole ++ fraction)) (exponent - fraction.length)

/-- A number without its sign. -/
def readMagnitude? (negative : Bool) (cs : List Char) : Option Binary64 :=
  let word := String.ofList (cs.map Char.toLower)
  if word = "nan" then some .nan
  else if word = "inf" || word = "infinity" then some (.infinity negative)
  else readDecimal? negative cs

/-- The double that a text stands for. -/
def read? (text : String) : Option Binary64 :=
  match text.toList with
  | '-' :: rest => readMagnitude? true rest
  | '+' :: rest => readMagnitude? false rest
  | rest => readMagnitude? false rest

end Barista.Binary64
