/-
Names that are printed, and read again.

`Text.Respells` lists the ways to write a name: any letter in the other case,
and any white space before and after. Looking up a text does not see the
difference (`Text.Respells.normalize_eq`), so every respelling of a name is
read as the name itself is. That is back to the kind that it is printed for,
with one exception: a deep cleaning is printed with a blank between its words,
and is read with a hyphen or an underscore only.
-/
import Barista.Drink
import Barista.Ingredient
import Barista.Maintenance.Service
import Mathlib.Data.List.Forall2
import Mathlib.Data.List.TakeWhile

namespace Barista

namespace Text

/-! ## Letter case -/

/-- A to Z are the numbers from 65 to 90, and a to z stand 32 further on. -/
theorem toNat_toLower (c : Char) :
    c.toLower.toNat = if 65 ≤ c.toNat ∧ c.toNat ≤ 90 then c.toNat + 32 else c.toNat := by
  unfold Char.toLower
  simp only [ge_iff_le, UInt32.le_iff_toNat_le]
  split
  · next h =>
    have hletter : 65 ≤ c.toNat ∧ c.toNat ≤ 90 := h
    have hplus : (c.val + 32).toNat = (c.toNat + 32) % 2 ^ 32 := UInt32.toNat_add _ _
    rw [if_pos hletter]
    exact hplus.trans (Nat.mod_eq_of_lt (by omega))
  · next h => exact (if_neg h).symm

theorem toNat_toUpper (c : Char) :
    c.toUpper.toNat = if 97 ≤ c.toNat ∧ c.toNat ≤ 122 then c.toNat - 32 else c.toNat := by
  unfold Char.toUpper
  simp only [UInt32.le_iff_toNat_le]
  split
  · next h =>
    have hletter : 97 ≤ c.toNat ∧ c.toNat ≤ 122 := h
    have hplus : (c.val + ('A'.val - 'a'.val)).toNat = (c.toNat + (2 ^ 32 - 32)) % 2 ^ 32 :=
      UInt32.toNat_add _ _
    rw [if_pos hletter]
    exact hplus.trans (by omega)
  · next h => exact (if_neg h).symm

/-- The same character, or the same letter in the other case. -/
def SameLetter (c d : Char) : Prop := d = c ∨ d = c.toUpper ∨ d = c.toLower

instance (c d : Char) : Decidable (SameLetter c d) := inferInstanceAs (Decidable (_ ∨ _))

theorem SameLetter.toLower_eq {c d : Char} (h : SameLetter c d) : d.toLower = c.toLower := by
  rcases h with rfl | rfl | rfl
  · rfl
  · rw [← Char.toNat_inj, toNat_toLower, toNat_toLower, toNat_toUpper]
    grind
  · rw [← Char.toNat_inj, toNat_toLower c.toLower, toNat_toLower]
    grind

theorem isBlank_of_between {c : Char} (h : 65 ≤ c.toNat ∧ c.toNat ≤ 122) : isBlank c = false := by
  simp only [isBlank, Bool.or_eq_false_iff, Bool.and_eq_false_iff, decide_eq_false_iff_not,
    beq_eq_false_iff_ne]
  omega

/-- No letter is blank in either case, and nothing else has another case. -/
theorem isBlank_toLower (c : Char) : isBlank c.toLower = isBlank c := by
  have hlower := toNat_toLower c
  by_cases h : 65 ≤ c.toNat ∧ c.toNat ≤ 90
  · rw [if_pos h] at hlower
    rw [isBlank_of_between (by omega), isBlank_of_between (by omega)]
  · rw [if_neg h] at hlower
    rw [Char.toNat_inj.1 hlower]

/-! ## White space -/

/-- Characters without the blank ones at their ends. -/
def bare (cs : List Char) : List Char :=
  ((cs.dropWhile isBlank).reverse.dropWhile isBlank).reverse

theorem bare_append_left {blanks : List Char} (h : ∀ c ∈ blanks, isBlank c = true)
    (cs : List Char) : bare (blanks ++ cs) = bare cs := by
  rw [bare, List.dropWhile_append_of_pos h, bare]

theorem bare_append_right {blanks : List Char} (h : ∀ c ∈ blanks, isBlank c = true)
    (cs : List Char) : bare (cs ++ blanks) = bare cs := by
  have hblanks : ∀ c ∈ blanks.reverse, isBlank c = true := fun c hc => h c (List.mem_reverse.1 hc)
  rw [bare, bare, List.dropWhile_append]
  split
  · next hnone =>
    rw [List.isEmpty_iff.1 hnone, List.dropWhile_eq_nil_iff.2 h]
  · rw [List.reverse_append, List.dropWhile_append_of_pos hblanks]

theorem bare_map_toLower (cs : List Char) :
    bare (cs.map Char.toLower) = (bare cs).map Char.toLower := by
  have hblank : isBlank ∘ Char.toLower = isBlank := funext isBlank_toLower
  simp only [bare, List.dropWhile_map, hblank, ← List.map_reverse]

theorem normalize_eq (text : String) :
    normalize text = String.ofList (bare (text.toList.map Char.toLower)) := by
  rw [bare_map_toLower, normalize, lowercase, trim, String.toList_ofList, bare]

/-! ## Respelling -/

/-- The text is the name, with any of its letters in the other case and any white space before and
after it. -/
def Respells (name text : String) : Prop :=
  ∃ before letters after : List Char, text.toList = before ++ letters ++ after ∧
    (∀ c ∈ before, isBlank c = true) ∧ (∀ c ∈ after, isBlank c = true) ∧
    List.Forall₂ SameLetter name.toList letters

theorem respells_of_letters {name text : String}
    (h : List.Forall₂ SameLetter name.toList text.toList) : Respells name text :=
  ⟨[], text.toList, [], by simp, by simp, by simp, h⟩

theorem respells_self (name : String) : Respells name name :=
  respells_of_letters (List.forall₂_same.2 fun _ _ => .inl rfl)

theorem map_toLower_eq {cs ds : List Char} (h : List.Forall₂ SameLetter cs ds) :
    ds.map Char.toLower = cs.map Char.toLower := by
  induction h with
  | nil => rfl
  | cons hletter _ ih => rw [List.map_cons, List.map_cons, hletter.toLower_eq, ih]

/-- **A respelled name is looked up as the name is.** -/
theorem Respells.normalize_eq {name text : String} (h : Respells name text) :
    normalize text = normalize name := by
  obtain ⟨before, letters, after, htext, hbefore, hafter, hletters⟩ := h
  have hblank {blanks : List Char} (h : ∀ c ∈ blanks, isBlank c = true) :
      ∀ c ∈ blanks.map Char.toLower, isBlank c = true := by
    rw [List.forall_mem_map]
    intro c hc
    rw [isBlank_toLower]
    exact h c hc
  rw [Text.normalize_eq, Text.normalize_eq, htext, List.map_append, List.map_append,
    bare_append_right (hblank hafter), bare_append_left (hblank hbefore), map_toLower_eq hletters]

end Text

/-! ## Kinds by their names -/

open Text

theorem Drink.ofText_of_respells {d : Drink} {text : String} (h : Respells d.name text) :
    ofText text = .ok d := by
  unfold ofText
  rw [h.normalize_eq]
  cases d <;> rfl

theorem Drink.eq_of_ofText_eq_error {text : String} {fault : Fault}
    (h : ofText text = .error fault) : fault = .unknownDrink text := by
  unfold ofText at h
  split at h <;> cases h
  rfl

theorem Ingredient.ofText_of_respells {i : Ingredient} {text : String} (h : Respells i.name text) :
    ofText text = .ok i := by
  unfold ofText
  rw [h.normalize_eq]
  cases i <;> rfl

theorem Ingredient.eq_of_ofText_eq_error {text : String} {fault : Fault}
    (h : ofText text = .error fault) : fault = .unknownIngredient text := by
  unfold ofText at h
  split at h <;> cases h
  rfl

namespace Service

theorem ofText_of_respells_deepCleaning {text : String} (h : Respells deepCleaning.name text) :
    ofText text = .error (.unknownService text) := by
  unfold ofText
  rw [h.normalize_eq]
  rfl

theorem ofText_of_respells {s : Service} (hs : s ≠ deepCleaning) {text : String}
    (h : Respells s.name text) : ofText text = .ok s := by
  unfold ofText
  rw [h.normalize_eq]
  cases s with
  | deepCleaning => exact absurd rfl hs
  | _ => rfl

theorem eq_of_ofText_eq_error {text : String} {fault : Fault}
    (h : ofText text = .error fault) : fault = .unknownService text := by
  unfold ofText at h
  split at h <;> cases h
  rfl

end Service

/-- **What is printed for a kind can be read back, but for a deep cleaning.** A text that respells
the name of a drink or of an ingredient is read as that; one that respells the name of a service is
read as that service just when this is no deep cleaning, and is refused when it is. A text that is
refused is given back as it was. -/
theorem names_read_back (text : String) :
    (∀ d : Drink, Respells d.name text → Drink.ofText text = .ok d) ∧
      (∀ i : Ingredient, Respells i.name text → Ingredient.ofText text = .ok i) ∧
      (∀ s : Service, Respells s.name text →
        (Service.ofText text = .ok s ↔ s ≠ .deepCleaning)) ∧
      (Respells Service.deepCleaning.name text →
        Service.ofText text = .error (.unknownService text)) ∧
      ∀ fault, (Drink.ofText text = .error fault → fault = .unknownDrink text) ∧
        (Ingredient.ofText text = .error fault → fault = .unknownIngredient text) ∧
        (Service.ofText text = .error fault → fault = .unknownService text) := by
  refine ⟨fun d => Drink.ofText_of_respells, fun i => Ingredient.ofText_of_respells, ?_,
    Service.ofText_of_respells_deepCleaning, fun fault =>
      ⟨Drink.eq_of_ofText_eq_error, Ingredient.eq_of_ofText_eq_error,
        Service.eq_of_ofText_eq_error⟩⟩
  intro s h
  constructor
  · rintro hread rfl
    cases hread.symm.trans (Service.ofText_of_respells_deepCleaning h)
  · intro hs
    exact Service.ofText_of_respells hs h

/-- A latte with white space around it, cups in capitals, a diagnostic behind the end of a line, and a
deep cleaning. -/
theorem names_read_back_latte :
    Drink.ofText "\t LaTTe\u3000" = .ok .latte ∧ Ingredient.ofText "CUPS" = .ok .cups ∧
      Service.ofText "\u2028Diagnostic" = .ok .diagnostic ∧
      Service.ofText "Deep Cleaning" = .error (.unknownService "Deep Cleaning") := by
  have hlatte : Respells Drink.latte.name "\t LaTTe\u3000" :=
    ⟨['\t', ' '], "LaTTe".toList, ['\u3000'], by decide, by simp [isBlank], by simp [isBlank],
      List.forall₂_iff_get.2 (by decide)⟩
  have hcups : Respells Ingredient.cups.name "CUPS" :=
    respells_of_letters (List.forall₂_iff_get.2 (by decide))
  have hdiagnostic : Respells Service.diagnostic.name "\u2028Diagnostic" :=
    ⟨['\u2028'], "Diagnostic".toList, [], by decide, by simp [isBlank], by simp,
      List.forall₂_iff_get.2 (by decide)⟩
  have hdeep : Respells Service.deepCleaning.name "Deep Cleaning" :=
    respells_of_letters (List.forall₂_iff_get.2 (by decide))
  obtain ⟨hdrink, -⟩ := names_read_back "\t LaTTe\u3000"
  obtain ⟨-, hingredient, -⟩ := names_read_back "CUPS"
  obtain ⟨-, -, hservice, -⟩ := names_read_back "\u2028Diagnostic"
  obtain ⟨-, -, -, hrefused, -⟩ := names_read_back "Deep Cleaning"
  exact ⟨hdrink .latte hlatte, hingredient .cups hcups,
    (hservice .diagnostic hdiagnostic).2 (by decide), hrefused hdeep⟩

theorem not_every_name_read_back :
    ¬ ((∀ (d : Drink) text, Respells d.name text → Drink.ofText text = .ok d) ∧
      (∀ (i : Ingredient) text, Respells i.name text → Ingredient.ofText text = .ok i) ∧
      ∀ (s : Service) text, Respells s.name text → Service.ofText text = .ok s) := by
  rintro ⟨-, -, hread⟩
  have hprinted := hread .deepCleaning "deep cleaning" (respells_self _)
  have hrefused : Service.ofText "deep cleaning" = .error (.unknownService "deep cleaning") := rfl
  cases hprinted.symm.trans hrefused

end Barista
