/-
The drinks on the menu: what each takes, how long it takes, what it costs and
how it wears the machine.
-/
import Barista.Binary64.Decimal
import Barista.Count
import Barista.Text.Blank

namespace Barista

inductive Drink where
  | espresso
  | americano
  | cappuccino
  | latte
deriving DecidableEq, Inhabited

/-- What one drink takes, in millilitres and grams. -/
structure Recipe where
  water : Count
  coffee : Count
  milk : Count
deriving DecidableEq

namespace Drink

def menu : List Drink := [.espresso, .americano, .cappuccino, .latte]

def name : Drink → String
  | .espresso => "Espresso"
  | .americano => "Americano"
  | .cappuccino => "Cappuccino"
  | .latte => "Latte"

def recipe : Drink → Recipe
  | .espresso => ⟨50, 15, 0⟩
  | .americano => ⟨150, 15, 0⟩
  | .cappuccino => ⟨100, 15, 50⟩
  | .latte => ⟨50, 15, 100⟩

/-- Seconds of brewing on top of the base time. -/
def brewBonus : Drink → Binary64
  | .espresso => 5
  | .americano => 10
  | .cappuccino => 15
  | .latte => 18

/-- What the drink costs on top of the base price. -/
def surcharge : Drink → Binary64
  | .espresso => 30
  | .americano => 40
  | .cappuccino => 50
  | .latte => 55

/-- Wear on top of the base wear. -/
def wear : Drink → Binary64
  | .espresso => 0.1
  | .americano => 0.2
  | .cappuccino => 0.3
  | .latte => 0.4

/-- Why the drink takes longer than the base time. -/
def brewNote : Drink → String
  | .espresso => "fast extraction"
  | .americano => "water top-up"
  | .cappuccino => "milk frothing"
  | .latte => "layered preparation"

/-- Coffees that are served without milk under a strict policy. -/
def isBlack : Drink → Bool
  | .espresso | .americano => true
  | .cappuccino | .latte => false

/-- The drink that a text names, whatever its letter case and the white space at its ends. -/
def ofText (text : String) : Except Fault Drink :=
  match Text.normalize text with
  | "espresso" => .ok .espresso
  | "americano" => .ok .americano
  | "cappuccino" => .ok .cappuccino
  | "latte" => .ok .latte
  | _ => .error (.unknownDrink text)

end Drink

end Barista
