import PugLint.Json.Value

/-!
# Decoding JSON values

How the options of rules are read from values. A record may be written as an
object, whose unknown fields are left out, or as an array of its first fields in
their order. A choice may be written as a string, or as an object with that
string as its one key and null as its value.
-/

namespace PugLint.Json.Value

/-- The truth value that a value is. -/
def bool? : Value → Option Bool
  | bool b => some b
  | _ => none

/-- The string that a value is. -/
def string? : Value → Option String
  | string s => some s
  | _ => none

/-- The strings of an array of strings. -/
def strings? : Value → Option (List String)
  | array items => items.mapM string?
  | _ => none

/-- The word of a choice. -/
def choice? : Value → Option String
  | string s => some s
  | object [(key, null)] => some key
  | _ => none

/-- The fields of a record with the given field names that are there. -/
def record? (names : List String) : Value → Option (List (String × Value))
  | object fields => some fields
  | array items => if items.length ≤ names.length then some (names.zip items) else none
  | _ => none

/-- A field of a record, decoded, or a default if it is not there. -/
def field? {α : Type} (fields : List (String × Value)) (name : String)
    (decode : Value → Option α) (missing : α) : Option α :=
  match fields.lookup name with
  | some value => decode value
  | none => some missing

end PugLint.Json.Value
