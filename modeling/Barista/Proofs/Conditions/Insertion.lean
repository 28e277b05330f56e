/-
Conditions are a map in the order of insertion.

`Conditions.Records` says what conditions show of the insertions that they come
from: every name that was inserted, in the order in which the names came up
first, and under each name the value that it was given last. One more insertion
keeps that up (`Records.insert`), and everything that is read from conditions
follows from it. The order is what makes the names distinct, so there is no
second entry that `allMet` and `get?` could disagree on.
-/
import Barista.Conditions
import Mathlib.Data.Finset.Card

namespace Barista.Conditions

variable {c : Conditions} {named : List (String × Bool)}

/-! ## One insertion -/

/-- A name that is there keeps its place, and a new one goes to the end. -/
theorem names_insert (c : Conditions) (name : String) (met : Bool) :
    (c.insert name met).names = if name ∈ c.names then c.names else c.names ++ [name] := by
  obtain ⟨entries⟩ := c
  simp only [insert, names]
  induction entries with
  | nil => simp [insertEntry]
  | cons entry rest ih =>
    by_cases h : entry.1 = name
    · simp [insertEntry, h]
    · simp only [insertEntry, if_neg h, List.map_cons, ih, List.mem_cons, Ne.symm h, false_or,
        List.cons_append]
      exact apply_ite (entry.1 :: ·) _ _ _

theorem mem_entries_iff (h : c.names.Nodup) (name : String) (met : Bool) :
    (name, met) ∈ c.entries ↔ c.get? name = some met := by
  obtain ⟨entries⟩ := c
  simp only [names, get?] at h ⊢
  induction entries with
  | nil => simp
  | cons entry rest ih =>
    obtain ⟨other, value⟩ := entry
    obtain ⟨hnew, hrest⟩ := List.nodup_cons.1 h
    by_cases hname : other = name
    · subst hname
      have hnot : (other, met) ∉ rest := fun hmem => hnew (List.mem_map.2 ⟨_, hmem, rfl⟩)
      simp [hnot, eq_comm]
    · simpa [hname, Ne.symm hname] using ih hrest

/-! ## Any number of insertions -/

/-- The value that a name was given last. -/
def lastValue? (named : List (String × Bool)) (name : String) : Option Bool :=
  named.reverse.lookup name

theorem lastValue?_append_self (named : List (String × Bool)) (name : String) (met : Bool) :
    lastValue? (named ++ [(name, met)]) name = some met := by
  simp [lastValue?]

theorem lastValue?_append_other {name other : String} (met : Bool) (h : other ≠ name) :
    lastValue? (named ++ [(name, met)]) other = lastValue? named other := by
  simp [lastValue?, List.lookup_cons, beq_eq_false_iff_ne.2 h]

/-- The conditions show the insertions: which names there were, in the order in which they came up
first, and the value that each was given last. -/
structure Records (named : List (String × Bool)) (c : Conditions) : Prop where
  mem_names : ∀ name, name ∈ c.names ↔ name ∈ named.map (·.1)
  in_order : c.names.Pairwise fun former latter =>
    (named.map (·.1)).idxOf former < (named.map (·.1)).idxOf latter
  get?_eq : ∀ name, c.get? name = lastValue? named name

theorem records_empty : Records [] empty := ⟨fun _ => Iff.rfl, .nil, fun _ => rfl⟩

namespace Records

theorem insert (r : Records named c) (name : String) (met : Bool) :
    Records (named ++ [(name, met)]) (c.insert name met) := by
  have hnames : (named ++ [(name, met)]).map (·.1) = named.map (·.1) ++ [name] := by simp
  -- The names that were there before have the first places they had.
  have hkept : c.names.Pairwise fun former latter =>
      (named.map (·.1) ++ [name]).idxOf former < (named.map (·.1) ++ [name]).idxOf latter := by
    refine r.in_order.imp_of_mem fun hformer hlatter hlt => ?_
    rwa [List.idxOf_append_of_mem ((r.mem_names _).1 hformer),
      List.idxOf_append_of_mem ((r.mem_names _).1 hlatter)]
  constructor
  · intro other
    rw [names_insert, hnames, List.mem_append, List.mem_singleton, ← r.mem_names]
    split
    · next hmem =>
      refine ⟨.inl, ?_⟩
      rintro (hother | rfl)
      · exact hother
      · exact hmem
    · rw [List.mem_append, List.mem_singleton]
  · rw [names_insert, hnames]
    split
    · exact hkept
    · next hnew =>
      rw [r.mem_names] at hnew
      refine List.pairwise_append.2 ⟨hkept, List.pairwise_singleton _ _, ?_⟩
      intro former hformer latter hlatter
      rw [r.mem_names] at hformer
      rw [List.mem_singleton] at hlatter
      subst hlatter
      rw [List.idxOf_append_of_mem hformer, List.idxOf_append_of_notMem hnew]
      exact Nat.lt_of_lt_of_le (List.idxOf_lt_length_iff.2 hformer) (Nat.le_add_right _ _)
  · intro other
    by_cases h : other = name
    · subst h
      rw [get?_insert_self, lastValue?_append_self]
    · rw [get?_insert_other c met h, lastValue?_append_other met h, r.get?_eq]

theorem nodup (r : Records named c) : c.names.Nodup := by
  refine r.in_order.imp ?_
  rintro former latter hlt rfl
  exact Nat.lt_irrefl _ hlt

theorem lastValue?_of_mem (r : Records named c) {entry : String × Bool} (h : entry ∈ c.entries) :
    lastValue? named entry.1 = some entry.2 := by
  rw [← r.get?_eq]
  exact (mem_entries_iff r.nodup entry.1 entry.2).1 h

theorem entries_eq (r : Records named c) :
    c.entries.map (fun entry => (entry.1, some entry.2)) =
      c.names.map fun name => (name, lastValue? named name) := by
  rw [names, List.map_map]
  refine List.map_congr_left fun entry hentry => ?_
  rw [Function.comp_apply, r.lastValue?_of_mem hentry]

theorem size_eq (r : Records named c) : c.size = (named.map (·.1)).toFinset.card := by
  have hnames : (named.map (·.1)).toFinset = c.names.toFinset := by
    ext name
    rw [List.mem_toFinset, List.mem_toFinset, r.mem_names]
  rw [hnames, List.toFinset_card_of_nodup r.nodup, names, List.length_map, size]

theorem failed_eq (r : Records named c) :
    c.failed = c.names.filter fun name => lastValue? named name = some false := by
  rw [failed, names, List.filter_map]
  congr 1
  refine List.filter_congr fun entry hentry => ?_
  rw [Function.comp_apply, r.lastValue?_of_mem hentry]
  cases entry.2 <;> rfl

theorem ofList_entries (r : Records named c) : ofList c.entries = c :=
  congrArg Conditions.mk (entries_ofList r.nodup)

end Records

theorem ofList_append (named : List (String × Bool)) (name : String) (met : Bool) :
    ofList (named ++ [(name, met)]) = (ofList named).insert name met := by
  simp [ofList, List.foldl_append]

theorem records_ofList (named : List (String × Bool)) : Records named (ofList named) := by
  induction named using List.reverseRecOn with
  | nil => exact records_empty
  | append_singleton named entry ih =>
    rw [ofList_append]
    exact ih.insert entry.1 entry.2

/-- **Conditions are a map in the order of insertion.** After any insertions, one after the other or
from a list, each name that was inserted is there once, in the order of the first insertions, with
the value of the last; so it is looked up and counted, and so are the names that are not met. The
conditions are those of their own entries. -/
theorem insertion_ordered (named : List (String × Bool)) :
    (∀ name met, (ofList named).insert name met = ofList (named ++ [(name, met)])) ∧
      (ofList named).names.Nodup ∧
      (∀ name, name ∈ (ofList named).names ↔ name ∈ named.map (·.1)) ∧
      ((ofList named).names.Pairwise fun former latter =>
        (named.map (·.1)).idxOf former < (named.map (·.1)).idxOf latter) ∧
      (ofList named).entries.map (fun entry => (entry.1, some entry.2)) =
        (ofList named).names.map (fun name => (name, lastValue? named name)) ∧
      (∀ name, (ofList named).get? name = lastValue? named name) ∧
      (ofList named).size = (named.map (·.1)).toFinset.card ∧
      (ofList named).failed =
        (ofList named).names.filter (fun name => lastValue? named name = some false) ∧
      ((ofList named).allMet = true ↔ (ofList named).failed = []) ∧
      ofList (ofList named).entries = ofList named := by
  have r := records_ofList named
  exact ⟨fun name met => (ofList_append named name met).symm, r.nodup, r.mem_names, r.in_order,
    r.entries_eq, r.get?_eq, r.size_eq, r.failed_eq, allMet_iff_failed_eq_nil _, r.ofList_entries⟩

example :
    let c := ofList [("b", true), ("a", false), ("b", false)]
    c.names = ["b", "a"] ∧ c.get? "b" = some false ∧ c.failed = ["b", "a"] ∧ c.allMet = false := by
  decide

end Barista.Conditions
