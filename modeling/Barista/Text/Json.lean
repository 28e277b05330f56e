/-
JSON documents as text, one item a line and two blanks for each level.
-/

namespace Barista.Text

/-- A JSON document. A number is given as its text. -/
inductive Json where
  | null
  | bool (value : Bool)
  | number (text : String)
  | string (text : String)
  | array (items : List Json)
  | object (fields : List (String × Json))

namespace Json

/-- A control character without a short form, as four hexadecimal digits. -/
def escapeCode (c : Char) : String :=
  let digits := String.ofList (Nat.toDigits 16 c.toNat)
  "\\u" ++ String.ofList (List.replicate (4 - digits.length) '0') ++ digits

def escape (c : Char) : String :=
  if c = '"' then "\\\""
  else if c = '\\' then "\\\\"
  else if c = '\n' then "\\n"
  else if c = '\r' then "\\r"
  else if c = '\t' then "\\t"
  else if c = '\x08' then "\\b"
  else if c = '\x0c' then "\\f"
  else if c.toNat < 0x20 then escapeCode c
  else c.toString

def quote (text : String) : String := "\"" ++ String.join (text.toList.map escape) ++ "\""

def indent (level : Nat) : String := String.ofList (List.replicate (2 * level) ' ')

/-- Items between brackets, one a line; no items leave the brackets side by side. -/
def bracketed (level : Nat) (opening closing : String) (items : List String) : String :=
  if items.isEmpty then opening ++ closing
  else
    let body := ",\n".intercalate (items.map (indent (level + 1) ++ ·))
    opening ++ "\n" ++ body ++ "\n" ++ indent level ++ closing

mutual

/-- The document as text, inside so many levels. -/
def pretty (level : Nat) : Json → String
  | .null => "null"
  | .bool value => if value then "true" else "false"
  | .number text => text
  | .string text => quote text
  | .array items => bracketed level "[" "]" (prettyItems (level + 1) items)
  | .object fields => bracketed level "\x7b" "\x7d" (prettyFields (level + 1) fields)

def prettyItems (level : Nat) : List Json → List String
  | [] => []
  | item :: rest => pretty level item :: prettyItems level rest

def prettyFields (level : Nat) : List (String × Json) → List String
  | [] => []
  | (name, value) :: rest => (quote name ++ ": " ++ pretty level value) :: prettyFields level rest

end

end Json

end Barista.Text
