/-
Named conditions with whether each is met, in the order they were first named.

Naming a condition again changes its value and keeps its place. `get?` is the
view: `get?_insert_self` and `get?_insert_other` say what `insert` does to it.
-/

namespace Barista

structure Conditions where
  entries : List (String × Bool)
deriving DecidableEq, Inhabited

namespace Conditions

def empty : Conditions := ⟨[]⟩

/-- The entries with one name's value changed where it stands, or the name added at the end. -/
def insertEntry (name : String) (met : Bool) : List (String × Bool) → List (String × Bool)
  | [] => [(name, met)]
  | (other, value) :: rest =>
    if other = name then (name, met) :: rest else (other, value) :: insertEntry name met rest

def insert (c : Conditions) (name : String) (met : Bool) : Conditions :=
  ⟨insertEntry name met c.entries⟩

/-- The conditions that result from naming each in turn. -/
def ofList (named : List (String × Bool)) : Conditions :=
  named.foldl (fun c entry => c.insert entry.1 entry.2) empty

def get? (c : Conditions) (name : String) : Option Bool :=
  (c.entries.find? fun entry => entry.1 = name).map (·.2)

def names (c : Conditions) : List String := c.entries.map (·.1)

def size (c : Conditions) : Nat := c.entries.length

def isEmpty (c : Conditions) : Bool := c.entries.isEmpty

def allMet (c : Conditions) : Bool := c.entries.all (·.2)

/-- The names of the conditions that are not met. -/
def failed (c : Conditions) : List String := (c.entries.filter fun entry => !entry.2).map (·.1)

def metCount (c : Conditions) : Nat := c.entries.countP (·.2)

/-! ## What `insert` does to the view -/

theorem get?_insert_self (c : Conditions) (name : String) (met : Bool) :
    (c.insert name met).get? name = some met := by
  obtain ⟨entries⟩ := c
  simp only [insert, get?]
  induction entries with
  | nil => simp [insertEntry]
  | cons entry rest ih =>
    by_cases h : entry.1 = name
    · simp [insertEntry, h]
    · simpa [insertEntry, h] using ih

theorem get?_insert_other (c : Conditions) {name other : String} (met : Bool) (h : other ≠ name) :
    (c.insert name met).get? other = c.get? other := by
  obtain ⟨entries⟩ := c
  simp only [insert, get?]
  induction entries with
  | nil => simp [insertEntry, Ne.symm h]
  | cons entry rest ih =>
    by_cases hn : entry.1 = name
    · simp [insertEntry, hn, Ne.symm h]
    · by_cases ho : entry.1 = other
      · simp [insertEntry, ho, h]
      · simpa [insertEntry, hn, ho] using ih

theorem insertEntry_of_not_mem {name : String} {entries : List (String × Bool)} (met : Bool)
    (h : name ∉ entries.map (·.1)) : insertEntry name met entries = entries ++ [(name, met)] := by
  induction entries with
  | nil => rfl
  | cons entry rest ih =>
    simp only [List.map_cons, List.mem_cons, not_or] at h
    simp [insertEntry, Ne.symm h.1, ih h.2]

theorem entries_foldl_insert {named : List (String × Bool)} (c : Conditions)
    (h : ((c.entries ++ named).map (·.1)).Nodup) :
    (named.foldl (fun c entry => c.insert entry.1 entry.2) c).entries = c.entries ++ named := by
  induction named generalizing c with
  | nil => simp
  | cons entry rest ih =>
    have hnew : entry.1 ∉ c.entries.map (·.1) := by
      intro hmem
      rw [List.map_append, List.nodup_append] at h
      exact h.2.2 _ hmem _ (by simp) rfl
    have hinsert : (c.insert entry.1 entry.2).entries = c.entries ++ [entry] :=
      insertEntry_of_not_mem entry.2 hnew
    rw [List.foldl_cons, ih _ (by simpa [hinsert] using h), hinsert]
    simp

theorem entries_ofList {named : List (String × Bool)} (h : (named.map (·.1)).Nodup) :
    (ofList named).entries = named := by
  simpa [ofList, empty] using entries_foldl_insert empty (by simpa [empty] using h)

theorem allMet_iff_failed_eq_nil (c : Conditions) : c.allMet = true ↔ c.failed = [] := by
  simp [allMet, failed]

end Conditions

end Barista
