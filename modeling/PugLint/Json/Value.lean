import PugLint.Json.Decimal

/-!
# JSON values

The values of configurations and reports, and their two written forms: compact,
and spread over lines with two blanks of indentation a level. Fields are
written in the order in which the value lists them.
-/

namespace PugLint.Json

/-- A number: an integer of up to 64 bits, or a floating-point number. -/
inductive Number where
  /-- A natural number. -/
  | natural (n : Nat)
  /-- The negative of a positive number. -/
  | negative (n : Nat)
  /-- A finite floating-point number. -/
  | float (x : Float)
  deriving Inhabited

/-- The text of a number. -/
def Number.text : Number → String
  | natural n => toString n
  | negative n => "-" ++ toString n
  | float x => Decimal.text x

/-- A JSON value. -/
inductive Value where
  /-- The null value. -/
  | null
  /-- A truth value. -/
  | bool (b : Bool)
  /-- A number. -/
  | number (n : Number)
  /-- A string. -/
  | string (s : String)
  /-- An array. -/
  | array (items : List Value)
  /-- An object. -/
  | object (fields : List (String × Value))
  deriving Inhabited

namespace Value

/-- The value of a natural number. -/
def ofNat (n : Nat) : Value := number (.natural n)

/-- An array of strings. -/
def ofStrings (items : List String) : Value := array (items.map string)

end Value

/-- Two hexadecimal digits. -/
def hexPair (n : Nat) : List Char :=
  [Nat.digitChar (n / 16), Nat.digitChar (n % 16)]

/-- A character inside a written string. Quotes, backslashes and control codes
    are escaped, everything else stands for itself. -/
def escapeChar (c : Char) : List Char :=
  if c == '"' then ['\\', '"']
  else if c == '\\' then ['\\', '\\']
  else if c == '\n' then ['\\', 'n']
  else if c == '\r' then ['\\', 'r']
  else if c == '\t' then ['\\', 't']
  else if c == '\x08' then ['\\', 'b']
  else if c == '\x0c' then ['\\', 'f']
  else if c.toNat < 32 then "\\u00".toList ++ hexPair c.toNat
  else [c]

/-- A string in quotes. -/
def quote (s : String) : String :=
  String.ofList ('"' :: s.toList.flatMap escapeChar ++ ['"'])

mutual

/-- The compact form of a value. -/
def compact : Value → String
  | .null => "null"
  | .bool true => "true"
  | .bool false => "false"
  | .number n => n.text
  | .string s => quote s
  | .array items => "[" ++ ",".intercalate (compactItems items) ++ "]"
  | .object fields => "\x7b" ++ ",".intercalate (compactFields fields) ++ "\x7d"

/-- The compact forms of the items of an array. -/
def compactItems : List Value → List String
  | [] => []
  | item :: items => compact item :: compactItems items

/-- The compact forms of the fields of an object. -/
def compactFields : List (String × Value) → List String
  | [] => []
  | (key, value) :: fields => (quote key ++ ":" ++ compact value) :: compactFields fields

end

/-- Entries on lines of their own, between two brackets. -/
def block (indentation : String) (opening closing : String) (entries : List String) : String :=
  if entries.isEmpty then opening ++ closing
  else
    let inner := "\n" ++ indentation ++ "  "
    opening ++ inner ++ ("," ++ inner).intercalate entries ++ "\n" ++ indentation ++ closing

mutual

/-- The form of a value over lines, behind the given indentation. -/
def pretty (indentation : String) : Value → String
  | .array items => block indentation "[" "]" (prettyItems (indentation ++ "  ") items)
  | .object fields =>
    block indentation "\x7b" "\x7d" (prettyFields (indentation ++ "  ") fields)
  | .null => "null"
  | .bool true => "true"
  | .bool false => "false"
  | .number n => n.text
  | .string s => quote s

/-- The items of an array over lines. -/
def prettyItems (indentation : String) : List Value → List String
  | [] => []
  | item :: items => pretty indentation item :: prettyItems indentation items

/-- The fields of an object over lines. -/
def prettyFields (indentation : String) : List (String × Value) → List String
  | [] => []
  | (key, value) :: fields =>
    (quote key ++ ": " ++ pretty indentation value) :: prettyFields indentation fields

end

end PugLint.Json
