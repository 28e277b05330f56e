/-
White space at the ends of a text, and letter case.

`Text.isBlank` is the Unicode property `White_Space`, all twenty-five
characters of it; letter case is changed for the letters A to Z alone.
-/

namespace Barista.Text

/-- The characters with the Unicode property `White_Space`. -/
def isBlank (c : Char) : Bool :=
  let n := c.toNat
  (0x09 ≤ n && n ≤ 0x0d) || n == 0x20 || n == 0x85 || n == 0xa0 || n == 0x1680 ||
    (0x2000 ≤ n && n ≤ 0x200a) || n == 0x2028 || n == 0x2029 || n == 0x202f || n == 0x205f ||
    n == 0x3000

/-- The text without the white space at its ends. -/
def trim (text : String) : String :=
  let front := text.toList.dropWhile isBlank
  String.ofList (front.reverse.dropWhile isBlank).reverse

/-- The text with A to Z in lower case and all else as it is. -/
def lowercase (text : String) : String := String.ofList (text.toList.map Char.toLower)

/-- How a kind is looked up from a text: without white space at the ends, in lower case. -/
def normalize (text : String) : String := lowercase (trim text)

end Barista.Text
