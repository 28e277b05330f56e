/-
The operator's view of a machine: its mode, what it has, and what to look after.
-/
import Barista.Machine.Basic
import Barista.Text.Lines

namespace Barista

inductive Mode where
  | normal
  | maintenance
  | error
  | standby
deriving DecidableEq, Inhabited

def Mode.name : Mode → String
  | .normal => "normal"
  | .maintenance => "maintenance"
  | .error => "error"
  | .standby => "standby"

inductive Priority where
  | critical
  | warning
  | info
deriving DecidableEq, Inhabited

def Priority.name : Priority → String
  | .critical => "CRITICAL"
  | .warning => "WARNING"
  | .info => "INFO"

structure Notice where
  priority : Priority
  message : String
deriving DecidableEq

def Notice.text (n : Notice) : String := s!"{n.priority.name}: {n.message}"

structure Status where
  hasWater : Bool
  hasCoffee : Bool
  hasCups : Bool
  hasMilk : Bool
  isHeated : Bool
  isClean : Bool
  canOperate : Bool
  mode : Mode
  notices : List Notice
  wear : Binary64
  health : Count
deriving DecidableEq

namespace Machine

/-- From this much waste on the machine counts as dirty. -/
def dirtyWaste : Count := 80

/-- The mode: the first that applies of broken, worn, brewing and full of waste. -/
def mode (m : Machine) : Mode :=
  if m.isBroken then .error
  else if m.needsMaintenance then .maintenance
  else if m.isBrewing then .standby
  else if criticalWaste ≤ m.waste then .maintenance
  else .normal

/-- Every notice there may be, and whether it is raised. -/
def alarms (m : Machine) : List (Bool × Notice) :=
  [ (m.isBroken, ⟨.critical, "machine is broken, repair required"⟩),
    (m.stock.water = 0, ⟨.critical, "out of water"⟩),
    (m.stock.coffee = 0, ⟨.critical, "out of coffee"⟩),
    (m.stock.cups = 0, ⟨.critical, "out of cups"⟩),
    (m.needsMaintenance, ⟨.warning, "high wear, maintenance required"⟩),
    (dirtyWaste ≤ m.waste, ⟨.warning, "waste level high"⟩),
    (m.stock.water < 200, ⟨.warning, "water low"⟩),
    (m.stock.coffee < 50, ⟨.warning, "coffee low"⟩),
    (m.stock.cups < 10, ⟨.warning, "cups low"⟩) ]

/-- The notices raised, and a closing remark on them. -/
def notices (m : Machine) : List Notice :=
  let raised := (m.alarms.filter (·.1)).map (·.2)
  let closing := if raised.isEmpty then "all systems nominal" else "review the notifications above"
  raised ++ [⟨.info, closing⟩]

def status (m : Machine) : Status :=
  let hasWater := 0 < m.stock.water
  let hasCoffee := 0 < m.stock.coffee
  let hasCups := 0 < m.stock.cups
  let isHeated := 90 ≤ m.temperature
  let isClean := m.waste < dirtyWaste
  { hasWater, hasCoffee, hasCups, isHeated, isClean
    hasMilk := 0 < m.stock.milk
    canOperate :=
      hasWater && hasCoffee && hasCups && isHeated && isClean && !m.isBroken && !m.isBrewing
    mode := m.mode
    notices := m.notices
    wear := m.wear
    health := m.health }

end Machine

namespace Status

def has (s : Status) (priority : Priority) : Bool := s.notices.any (·.priority = priority)

def lines (s : Status) : List String :=
  [ "=== Machine State ===",
    s!"Mode: {s.mode.name}",
    s!"Wear: {s.wear.fixed 1}% (health {s.health}%)",
    "",
    "Logical variables:",
    s!"  HasWater:  {s.hasWater}",
    s!"  HasCoffee: {s.hasCoffee}",
    s!"  HasCups:   {s.hasCups}",
    s!"  HasMilk:   {s.hasMilk}",
    s!"  IsHeated:  {s.isHeated}",
    s!"  IsClean:   {s.isClean}",
    "",
    "CanOperate = HasWater ∧ HasCoffee ∧ HasCups ∧ IsHeated ∧ IsClean ∧ ¬broken ∧ ¬brewing = " ++
      toString s.canOperate,
    "",
    "Notifications:" ] ++ s.notices.map fun n => "  - " ++ n.text

/-- The status as text; every line ends, the last one too. -/
def text (s : Status) : String := Text.unlines s.lines

end Status

end Barista
