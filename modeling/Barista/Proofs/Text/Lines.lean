/-
Texts of lines, read again.

`Text.lines` takes apart what `Text.unlines` has put together, as long as no
line has an end of its own (`Text.lines_unlines`), and numbers have none
(`Binary64.newline_notMem_fixed`). What a line ends with can be read off the
last text that it was put together from, and what it begins with off the first
one.
-/
import Barista.Binary64.Text
import Barista.Text.Lines
import Mathlib.Data.List.Basic

namespace Barista.Text

/-! ## Lines -/

/-- The lines that end in a text, without their ends. -/
def lines (text : String) : List String := ((text.toList.splitOn '\n').dropLast).map String.ofList

theorem unlines_nil : unlines [] = "" := rfl

theorem unlines_cons (line : String) (rest : List String) :
    unlines (line :: rest) = line ++ "\n" ++ unlines rest := by
  rw [unlines, unlines, List.map_cons, String.join_cons]

/-- Behind the end of a line reading starts anew. -/
theorem lines_append (text rest : String) :
    lines (text ++ "\n" ++ rest) = lines (text ++ "\n") ++ lines rest := by
  have hend : "\n".toList = ['\n'] := by decide
  rw [lines, lines, lines, String.toList_append, String.toList_append, hend, List.append_assoc,
    List.singleton_append, List.splitOn_append_cons_self, List.splitOn_append_cons_self,
    List.dropLast_append_of_ne_nil (List.splitOn_ne_nil _ _),
    List.dropLast_append_of_ne_nil (List.splitOn_ne_nil _ _), List.splitOn_nil,
    List.dropLast_singleton, List.append_nil, List.map_append]

theorem lines_line {line : String} (h : '\n' ∉ line.toList) : lines (line ++ "\n") = [line] := by
  have hend : "\n".toList = ['\n'] := by decide
  rw [lines, String.toList_append, hend, List.splitOn_append_cons_self,
    List.splitOn_eq_singleton h, List.splitOn_nil, List.dropLast_concat, List.map_singleton,
    String.ofList_toList]

/-- **Reading again what was written.** -/
theorem lines_unlines {ls : List String} (h : ∀ l ∈ ls, '\n' ∉ l.toList) :
    lines (unlines ls) = ls := by
  induction ls with
  | nil => rfl
  | cons line rest ih =>
    rw [unlines_cons, lines_append, lines_line (h line List.mem_cons_self),
      ih fun l hl => h l (List.mem_cons_of_mem _ hl), List.singleton_append]

/-- The last lines are read as they are, even if there are ends of lines within others. -/
theorem suffix_lines_unlines {all ls : List String} (hall : ls <:+ all)
    (h : ∀ l ∈ ls, '\n' ∉ l.toList) : ls <:+ lines (unlines all) := by
  obtain ⟨front, rfl⟩ := hall
  induction front with
  | nil => exact ⟨[], by rw [List.nil_append, lines_unlines h]⟩
  | cons line rest ih =>
    rw [List.cons_append, unlines_cons, lines_append]
    exact ih.trans (List.suffix_append _ _)

theorem suffix_lines_append (text : String) {all ls : List String} (hall : ls <:+ all)
    (h : ∀ l ∈ ls, '\n' ∉ l.toList) : ls <:+ lines (text ++ unlines ("" :: all)) := by
  rw [unlines_cons, String.empty_append, ← String.append_assoc, lines_append]
  exact (suffix_lines_unlines hall h).trans (List.suffix_append _ _)

/-- Which lines a text ends with can be seen from the lines that were written. -/
theorem suffix_lines_unlines_iff {all ls ls' : List String} (hall : ls <:+ all)
    (h : ∀ l ∈ ls, '\n' ∉ l.toList) (hlen : ls'.length = ls.length) :
    ls' <:+ lines (unlines all) ↔ ls' = ls := by
  have hls := suffix_lines_unlines hall h
  constructor
  · intro hls'
    exact (List.suffix_of_suffix_length_le hls' hls (Nat.le_of_eq hlen)).eq_of_length hlen
  · rintro rfl
    exact hls

/-! ## Endings -/

/-- The text ends with another. -/
def endsWith (ending text : String) : Bool := ending.toList.isSuffixOf text.toList

theorem endsWith_append (ending text : String) : endsWith ending (text ++ ending) = true := by
  rw [endsWith, List.isSuffixOf_iff_suffix, String.toList_append]
  exact List.suffix_append _ _

/-- An ending is looked for in the last part of a text, if that is long enough. -/
theorem endsWith_append_of_le {ending last : String} (text : String)
    (hlen : ending.length ≤ last.length) :
    endsWith ending (text ++ last) = endsWith ending last := by
  rw [Bool.eq_iff_iff, endsWith, endsWith, List.isSuffixOf_iff_suffix, List.isSuffixOf_iff_suffix,
    String.toList_append]
  constructor
  · intro h
    refine List.suffix_of_suffix_length_le h (List.suffix_append _ _) ?_
    rwa [String.length_toList, String.length_toList]
  · intro h
    exact h.trans (List.suffix_append _ _)

theorem endsWith_append_of_not {ending last : String} (text : String)
    (hlen : last.length ≤ ending.length) (h : ¬ last.toList <:+ ending.toList) :
    endsWith ending (text ++ last) = false := by
  rw [endsWith, ← Bool.not_eq_true, List.isSuffixOf_iff_suffix, String.toList_append]
  intro hends
  refine h (List.suffix_of_suffix_length_le (List.suffix_append _ _) hends ?_)
  rwa [String.length_toList, String.length_toList]

/-! ## Beginnings -/

/-- The text begins with another. -/
def startsWith (beginning text : String) : Bool := beginning.toList.isPrefixOf text.toList

/-- Neither text begins with the other. -/
def Apart (a b : String) : Prop := ¬ a.toList <+: b.toList ∧ ¬ b.toList <+: a.toList

instance (a b : String) : Decidable (Apart a b) := inferInstanceAs (Decidable (_ ∧ _))

theorem startsWith_append {beginning first : String} (h : startsWith beginning first = true)
    (text : String) : startsWith beginning (first ++ text) = true := by
  rw [startsWith, List.isPrefixOf_iff_prefix] at h ⊢
  rw [String.toList_append]
  exact h.trans (List.prefix_append _ _)

theorem Apart.append {a b : String} (h : Apart a b) (text : String) : Apart a (b ++ text) := by
  rw [Apart, String.toList_append]
  constructor
  · intro hbegins
    rcases List.prefix_or_prefix_of_prefix hbegins (List.prefix_append _ _) with hab | hba
    · exact h.1 hab
    · exact h.2 hba
  · intro hbegins
    exact h.2 ((List.prefix_append _ _).trans hbegins)

theorem Apart.startsWith {a b : String} (h : Apart a b) : startsWith a b = false := by
  rw [Text.startsWith, ← Bool.not_eq_true, List.isPrefixOf_iff_prefix]
  exact h.1

theorem Apart.startsWith_append {a b : String} (h : Apart a b) (text : String) :
    Text.startsWith a (b ++ text) = false :=
  (h.append text).startsWith

/-! ## Numbers -/

@[simp] theorem toString_eq (text : String) : toString text = text := rfl

@[simp] theorem newline_notMem_toDigits (n : Nat) : '\n' ∉ Nat.toDigits 10 n := by
  intro h
  exact absurd (Nat.isDigit_of_mem_toDigits (by decide) (by decide) h) (by decide)

theorem newline_notMem_repeated {c : Char} (h : c ≠ '\n') (count : Nat) :
    '\n' ∉ (repeated c count).toList := by
  rw [repeated, String.toList_ofList]
  intro hmem
  exact h (List.eq_of_mem_replicate hmem).symm

end Barista.Text

namespace Barista.Binary64

open Text

theorem newline_notMem_pointed {digits : String} (h : '\n' ∉ digits.toList) (places : Int) :
    '\n' ∉ (pointed digits places).toList := by
  have hzeros := newline_notMem_repeated (c := '0') (by decide)
  have hpart {part : List Char} (hpart : ∀ c ∈ part, c ∈ digits.toList) : '\n' ∉ part :=
    fun hmem => h (hpart _ hmem)
  simp only [pointed]
  split
  · simp [h, hzeros]
  · split
    · simp [hpart fun _ => List.mem_of_mem_take, hpart fun _ => List.mem_of_mem_drop]
    · simp [h, hzeros]

@[simp] theorem newline_notMem_fixed (places : Nat) (x : Binary64) :
    '\n' ∉ (x.fixed places).toList := by
  have hsign : ∀ negative, '\n' ∉ (sign negative).toList := by decide
  cases x with
  | nan => simp [fixed]
  | infinity negative => simp [fixed, hsign]
  | finite negative units valid =>
    simp only [fixed, String.toList_append, List.mem_append, hsign, false_or, fixedPoint]
    split
    · simp
    · exact newline_notMem_pointed (by simp [newline_notMem_repeated]) _

end Barista.Binary64
