/-
What a command line asks for: a machine to begin with, and a command.
-/
import Barista.Brewing
import Barista.CommandLine.Scan
import Barista.Cycle.Cleaning
import Barista.Cycle.Heating
import Barista.Cycle.SelfTest
import Barista.Maintenance.Basic
import Barista.Refill

namespace Barista.CommandLine

/-- The machine as the options describe it. -/
structure MachineOptions where
  stock : Stock
  temperature : Binary64
  waste : Count
  wear : Binary64
  strictMilk : Bool
deriving DecidableEq

/-- A cyclic process with its parameters. -/
inductive Cycle where
  | heating (parameters : WaterHeating)
  | cleaning (parameters : TankCleaning)
  /-- Without listed failures the tests are random, from a seed or from a key drawn elsewhere. -/
  | dispensers (count : Nat) (failures : List Nat) (seed : Option Nat) (passRate : Binary64)
deriving DecidableEq

inductive Command where
  | status
  | recipes
  | brewTime (drink : Drink) (sugar : Count)
  | validate (order : Order)
  | analyse (order : Order) (basePrice : Binary64)
  | brew (order : Order) (basePrice : Binary64)
  | refill (wanted : Refill)
  | maintain (wanted : Maintenance)
  | cycle (process : Cycle) (json : Bool)
deriving DecidableEq

structure Invocation where
  machine : MachineOptions
  command : Command
deriving DecidableEq

/-! ## Values -/

/-- A whole number from zero up to a bound. The sign does not matter for zero. -/
def count? (most : Nat) (text : String) : Option Count :=
  let fits (n : Int) : Bool := 0 ≤ n && n ≤ most
  ((Text.integer? text.toList).filter fits).map fun n => UInt32.ofNat n.toNat

def anyCount? : String → Option Count := count? (UInt32.size - 1)

def natural? : String → Option Nat := Text.naturalUpTo? (UInt64.size - 1)

/-- Natural numbers with commas between them. -/
def naturals? (text : String) : Option (List Nat) := (text.splitOn ",").mapM natural?

/-! ## Options -/

def valued (name : String) (accepts : String → Bool) : OptionRule :=
  ⟨name, none, some ⟨accepts, false, false⟩⟩

/-- An option that takes a number, which may be negative. -/
def signedNumber (name : String) : OptionRule :=
  ⟨name, none, some ⟨fun text => (Binary64.read? text).isSome, true, false⟩⟩

/-- An option that takes a number, which as a separate value may not be negative. -/
def unsignedNumber (name : String) : OptionRule :=
  valued name fun text => (Binary64.read? text).isSome

def counted (name : String) : OptionRule := valued name fun text => (anyCount? text).isSome

def flag (name : String) : OptionRule := ⟨name, none, none⟩

def OptionRule.withShort (short : Char) (o : OptionRule) : OptionRule :=
  { o with short := some short }

/-- The options that describe the machine, allowed at every level. -/
def machineRules : List OptionRule :=
  [ counted "stock-water", counted "stock-coffee", counted "stock-milk", counted "stock-cups",
    counted "stock-sugar", signedNumber "temperature",
    valued "waste-level" fun text => (count? 100 text).isSome,
    signedNumber "wear", flag "strict-milk" ]

def sugarRule : OptionRule := (counted "sugar").withShort 's'

def orderRules : List OptionRule := [sugarRule, (flag "milk").withShort 'm']

def priceRule : OptionRule := unsignedNumber "base-price"

def failRule : OptionRule := ⟨"fail", none, some ⟨fun text => (naturals? text).isSome, false, true⟩⟩

/-- The options of a command beside the machine's, by its name. -/
def commandRules : List (String × List OptionRule) :=
  [ ("status", []),
    ("recipes", []),
    ("brew-time", [sugarRule]),
    ("validate", orderRules),
    ("wp", orderRules ++ [priceRule]),
    ("brew", orderRules ++ [priceRule]),
    ("refill", [(counted "amount").withShort 'a', flag "to-max"]),
    ("maintain", [flag "drain-water", flag "reset-stats"]),
    ("cycle", [flag "json"]) ]

/-- The options of a process beside those of its command, by its name. -/
def cycleRules : List (String × List OptionRule) :=
  [ ("heating", ["current", "target", "rate", "max-safe"].map signedNumber),
    ("cleaning", ["waste", "rate"].map signedNumber),
    ("dispensers",
      [ valued "count" fun text => (natural? text).isSome, failRule,
        valued "seed" fun text => (natural? text).isSome, unsignedNumber "pass-rate" ]) ]

/-! ## Reading a command -/

/-- The value of an option read by a function, or what stands for it when it is not given. -/
def valueOr {α : Type} (levels : List Level) (name : String) (read? : String → Option α)
    (default : α) : α :=
  ((value? levels name).bind read?).getD default

def machineOptions (levels : List Level) : MachineOptions :=
  let level (name : String) (default : Count) := valueOr levels name anyCount? default
  { stock :=
      ⟨level "stock-water" 1000, level "stock-coffee" 500, level "stock-milk" 1000,
        level "stock-cups" 50, level "stock-sugar" 200⟩
    temperature := valueOr levels "temperature" Binary64.read? 95
    waste := level "waste-level" 15
    wear := valueOr levels "wear" Binary64.read? 0
    strictMilk := hasFlag levels "strict-milk" }

/-- A cyclic process from its name and the level of its options. -/
def cycle? (name : String) (l : Level) : Option Cycle :=
  let number (name : String) (default : Binary64) := valueOr [l] name Binary64.read? default
  if !l.words.isEmpty then none
  else match name with
    | "heating" =>
      some (.heating
        ⟨number "current" 20, number "target" 95, number "rate" 5, number "max-safe" 100⟩)
    | "cleaning" => some (.cleaning ⟨number "waste" 50, number "rate" 10⟩)
    | "dispensers" =>
      let failures := (l.values "fail").flatMap fun text => (naturals? text).getD []
      let seed := (value? [l] "seed").bind natural?
      some (.dispensers (valueOr [l] "count" natural? 5) failures seed
        (number "pass-rate" Random.defaultPassRate))
    | _ => none

def refill? (ingredient : Ingredient) (l : Level) : Option Refill :=
  match (value? [l] "amount").bind anyCount?, hasFlag [l] "to-max" with
  | some amount, false => some ⟨ingredient, .exact amount⟩
  | none, true => some ⟨ingredient, .toCapacity⟩
  | _, _ => none

/-- A command without subcommands, from its name and the level of its options. -/
def command? (name : String) (l : Level) : Option Command :=
  let sugar := valueOr [l] "sugar" anyCount? 0
  let order (drink : Drink) : Order := ⟨drink, sugar, hasFlag [l] "milk"⟩
  let price := valueOr [l] "base-price" Binary64.read? 20
  match name, l.words with
  | "status", [] => some .status
  | "recipes", [] => some .recipes
  | "brew-time", [word] => (Drink.ofText word).toOption.map (.brewTime · sugar)
  | "validate", [word] => (Drink.ofText word).toOption.map fun d => .validate (order d)
  | "wp", [word] => (Drink.ofText word).toOption.map fun d => .analyse (order d) price
  | "brew", [word] => (Drink.ofText word).toOption.map fun d => .brew (order d) price
  | "refill", [word] => (Ingredient.ofText word).toOption.bind fun i => (refill? i l).map .refill
  | "maintain", [word] => (Service.ofText word).toOption.map fun s =>
      .maintain ⟨s, hasFlag [l] "drain-water", hasFlag [l] "reset-stats"⟩
  | _, _ => none

/-- What the arguments ask for, if they fit together. -/
def parse? (args : List String) : Option Invocation := do
  let outer ← scanLevel? ⟨machineRules, commandRules.map (·.1)⟩ args
  let (name, args) ← outer.subcommand
  let own ← commandRules.lookup name
  let subcommands := if name = "cycle" then cycleRules.map (·.1) else []
  let inner ← scanLevel? ⟨machineRules ++ own, subcommands⟩ args
  if !outer.level.words.isEmpty then none
  else if name = "cycle" then
    let (process, args) ← inner.subcommand
    let leaf ← scanLevel? ⟨machineRules ++ own ++ (← cycleRules.lookup process), []⟩ args
    if !inner.level.words.isEmpty then none
    else
      let levels := [outer.level, inner.level, leaf.level]
      let cycle ← cycle? process leaf.level
      return ⟨machineOptions levels, .cycle cycle (hasFlag levels "json")⟩
  else return ⟨machineOptions [outer.level, inner.level], ← command? name inner.level⟩

end Barista.CommandLine
