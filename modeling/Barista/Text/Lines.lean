/-
Texts made of lines.
-/

namespace Barista.Text

/-- The lines as one text; every line ends, the last one too. -/
def unlines (lines : List String) : String := String.join (lines.map (· ++ "\n"))

theorem unlines_append (xs ys : List String) : unlines (xs ++ ys) = unlines xs ++ unlines ys := by
  simp [unlines]

end Barista.Text
