/-
Texts of a given width: a character repeated, and a text filled up with blanks.
-/

namespace Barista.Text

/-- So many copies of a character. -/
def repeated (c : Char) (count : Nat) : String := String.ofList (List.replicate count c)

def padRight (width : Nat) (text : String) : String := text ++ repeated ' ' (width - text.length)

def padLeft (width : Nat) (text : String) : String := repeated ' ' (width - text.length) ++ text

end Barista.Text
