/-
Arguments sorted into options, words and a subcommand, level by level.

A level is a command with its options; a subcommand opens the next level. An
option is given as `--name value`, `--name=value`, `-n value`, `-n=value` or
`-nvalue`, a flag as `--name` or `-n`, and short flags may stand together before
a short option. After `--` there are words only. A separate value may begin
with a minus sign only where the option takes negative numbers and the value
looks like one. Whatever does not fit makes the whole line unusable, so a scan
has a result or none.
-/
import Barista.Text.Numeral

namespace Barista.CommandLine

/-- What an option's value has to be. -/
structure ValueRule where
  accepts : String → Bool
  /-- A separate value may be a negative number. -/
  negatives : Bool
  /-- The option may be given more than once. -/
  repeatable : Bool

structure OptionRule where
  name : String
  short : Option Char
  /-- None for a flag. -/
  value : Option ValueRule

/-- An option as it was given; a flag has the empty value. -/
structure Given where
  name : String
  value : String
deriving DecidableEq

structure LevelRule where
  options : List OptionRule
  subcommands : List String

/-- What was found at one level. -/
structure Level where
  given : List Given
  words : List String
deriving DecidableEq, Inhabited

/-- A level, and the subcommand after it with its own arguments. -/
structure Scanned where
  level : Level
  subcommand : Option (String × List String)

namespace Scanned

def empty : Scanned := ⟨⟨[], []⟩, none⟩

/-- With options given before all others. -/
def addGiven (given : List Given) (s : Scanned) : Scanned :=
  { s with level := { s.level with given := given ++ s.level.given } }

def addWord (word : String) (s : Scanned) : Scanned :=
  { s with level := { s.level with words := word :: s.level.words } }

end Scanned

/-- Digits, perhaps a point and more digits, perhaps `e` or `E` and digits. A sign before the
power is not a number's look. -/
def looksLikeNumber (cs : List Char) : Bool :=
  let (whole, rest) := cs.span Char.isDigit
  let rest := match rest with
    | '.' :: rest => rest.dropWhile Char.isDigit
    | rest => rest
  !whole.isEmpty && match rest with
    | [] => true
    | c :: power => (c = 'e' || c = 'E') && !power.isEmpty && power.all Char.isDigit

/-- The argument can be the separate value of an option. -/
def canBeValue (rule : ValueRule) (arg : String) : Bool :=
  match arg.toList with
  | '-' :: c :: rest => rule.negatives && looksLikeNumber (c :: rest)
  | _ => true

/-- What an argument gives: options, and one option more if its value is still to come. -/
structure Opened where
  given : List Given
  pending : Option (String × ValueRule)

/-- The name and value of `name=value`. -/
def splitAssignment (cs : List Char) : String × Option String :=
  match cs.span (· ≠ '=') with
  | (name, []) => (String.ofList name, none)
  | (name, _ :: value) => (String.ofList name, some (String.ofList value))

/-- An option's value that stands in the same argument. -/
def giveAttached? (name : String) (rule : ValueRule) (value : String) : Option Given :=
  if rule.accepts value then some ⟨name, value⟩ else none

/-- An argument after its two minus signs. -/
def openLong? (options : List OptionRule) (cs : List Char) : Option Opened := do
  let (name, attached) := splitAssignment cs
  let option ← options.find? (·.name = name)
  match option.value, attached with
  | none, none => return ⟨[⟨name, ""⟩], none⟩
  | none, some _ => none
  | some rule, none => return ⟨[], some (name, rule)⟩
  | some rule, some value => return ⟨[← giveAttached? name rule value], none⟩

/-- An argument after its one minus sign: flags, then perhaps an option with its value. -/
def openShort? (options : List OptionRule) : List Char → Option Opened
  | [] => some ⟨[], none⟩
  | c :: rest => do
    let option ← options.find? (·.short = some c)
    match option.value with
    | none =>
      let later ← openShort? options rest
      return { later with given := ⟨option.name, ""⟩ :: later.given }
    | some rule =>
      match rest with
      | [] => return ⟨[], some (option.name, rule)⟩
      | '=' :: value => return ⟨[← giveAttached? option.name rule (String.ofList value)], none⟩
      | value => return ⟨[← giveAttached? option.name rule (String.ofList value)], none⟩

/-- Sorts the arguments of one level. `pending` is an option that waits for its value. -/
def scan? (rule : LevelRule) :
    (pending : Option (String × ValueRule)) → List String → Option Scanned
  | none, [] => some .empty
  | some _, [] => none
  | some (name, value), arg :: rest =>
    if canBeValue value arg && value.accepts arg then
      (scan? rule none rest).map (·.addGiven [⟨name, arg⟩])
    else none
  | none, arg :: rest =>
    if rule.subcommands.contains arg then some { Scanned.empty with subcommand := some (arg, rest) }
    else if arg = "--" then some ⟨⟨[], rest⟩, none⟩
    else match arg.toList with
      | '-' :: '-' :: cs => do
        let opened ← openLong? rule.options cs
        return (← scan? rule opened.pending rest).addGiven opened.given
      | '-' :: c :: cs => do
        let opened ← openShort? rule.options (c :: cs)
        return (← scan? rule opened.pending rest).addGiven opened.given
      | _ => (scan? rule none rest).map (·.addWord arg)

/-- No option is given twice but those that may be. -/
def givenOnce (options : List OptionRule) (given : List Given) : Bool :=
  options.all fun option =>
    (option.value.any (·.repeatable)) || (given.filter (·.name = option.name)).length ≤ 1

/-- The arguments of one level, if every one of them fits. -/
def scanLevel? (rule : LevelRule) (args : List String) : Option Scanned :=
  (scan? rule none args).filter fun s => givenOnce rule.options s.level.given

/-! ## Values over all levels -/

/-- The values of an option at one level, in order. -/
def Level.values (l : Level) (name : String) : List String :=
  (l.given.filter (·.name = name)).map (·.value)

/-- The value of an option, from the innermost level that gives it. -/
def value? (levels : List Level) (name : String) : Option String :=
  (levels.reverse.findSome? fun l => (l.values name).getLast?)

/-- A flag is given at some level. -/
def hasFlag (levels : List Level) (name : String) : Bool :=
  levels.any fun l => !(l.values name).isEmpty

end Barista.CommandLine
