/-
What the machine stores, how much of each it holds, and the stock itself.
-/
import Barista.Count
import Barista.Text.Blank

namespace Barista

inductive Ingredient where
  | water
  | coffee
  | milk
  | cups
  | sugar
deriving DecidableEq, Inhabited

namespace Ingredient

def all : List Ingredient := [.water, .coffee, .milk, .cups, .sugar]

def name : Ingredient → String
  | .water => "water"
  | .coffee => "coffee"
  | .milk => "milk"
  | .cups => "cups"
  | .sugar => "sugar"

/-- The most that a refill fills up to. -/
def capacity : Ingredient → Count
  | .water => 2000
  | .coffee => 500
  | .milk => 1000
  | .cups => 50
  | .sugar => 200

def unit : Ingredient → String
  | .water | .milk => "ml"
  | .coffee | .sugar => "g"
  | .cups => "pcs"

/-- The ingredient that a text names, whatever its letter case and the white space at its ends. -/
def ofText (text : String) : Except Fault Ingredient :=
  match Text.normalize text with
  | "water" => .ok .water
  | "coffee" => .ok .coffee
  | "milk" => .ok .milk
  | "cups" | "cup" => .ok .cups
  | "sugar" => .ok .sugar
  | _ => .error (.unknownIngredient text)

theorem mem_all (i : Ingredient) : i ∈ all := by cases i <;> simp [all]

end Ingredient

/-- How much there is of each ingredient. -/
structure Stock where
  water : Count
  coffee : Count
  milk : Count
  cups : Count
  sugar : Count
deriving DecidableEq, Inhabited

namespace Stock

def level (s : Stock) : Ingredient → Count
  | .water => s.water
  | .coffee => s.coffee
  | .milk => s.milk
  | .cups => s.cups
  | .sugar => s.sugar

def setLevel (s : Stock) (ingredient : Ingredient) (amount : Count) : Stock :=
  match ingredient with
  | .water => { s with water := amount }
  | .coffee => { s with coffee := amount }
  | .milk => { s with milk := amount }
  | .cups => { s with cups := amount }
  | .sugar => { s with sugar := amount }

@[simp] theorem level_setLevel_self (s : Stock) (i : Ingredient) (amount : Count) :
    (s.setLevel i amount).level i = amount := by cases i <;> rfl

theorem level_setLevel_other (s : Stock) {i j : Ingredient} (amount : Count) (h : j ≠ i) :
    (s.setLevel i amount).level j = s.level j := by
  cases i <;> cases j <;> simp_all [setLevel, level]

theorem ext_level {s t : Stock} (h : ∀ i, s.level i = t.level i) : s = t := by
  cases s
  cases t
  simp only [mk.injEq]
  exact ⟨h .water, h .coffee, h .milk, h .cups, h .sugar⟩

theorem setLevel_level (s : Stock) (i : Ingredient) : s.setLevel i (s.level i) = s := by
  cases i <;> rfl

theorem setLevel_comm (s : Stock) {i j : Ingredient} (a b : Count) (h : i ≠ j) :
    (s.setLevel i a).setLevel j b = (s.setLevel j b).setLevel i a := by
  cases i <;> cases j <;> first | rfl | exact absurd rfl h

end Stock

end Barista
