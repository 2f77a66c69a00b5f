import PugLint.Config.Decode
import PugLint.Json.Reader
import PugLint.Pattern

/-!
# Reading configurations

A configuration is an object with three fields, or an array of its first fields.

* `Config.parse`: reads the text of a configuration;
* `Config.load`: reads a file.
-/

namespace PugLint.Config

/-- The names of the fields of a configuration, in their order. -/
def fieldNames : List String := ["$schema", "preset", "rules"]

/-- Reads the reference to a description. -/
def readSchema? : Json.Tree → Option (Option String)
  | .null => some none
  | .string pieces => (Json.decodeString? pieces).map fun cs => some (String.ofList cs)
  | _ => none

/-- Reads a preset: its word, or an object with the word as its one key and null
    as its value. -/
def readPreset? : Json.Tree → Option Preset
  | .string pieces => (Json.decodeString? pieces).bind fun cs => Preset.ofWord? (String.ofList cs)
  | .object [(pieces, .null)] =>
    (Json.decodeString? pieces).bind fun cs => Preset.ofWord? (String.ofList cs)
  | _ => none

/-- Reads the settings. Inside the configuration, one level of nesting is used
    up. -/
def readRules? (tree : Json.Tree) : Option (List (String × Json.Value)) :=
  match tree with
  | .object _ =>
    match tree.value? (Json.maxDepth - 1) with
    | some (.object fields) => some fields
    | _ => none
  | _ => none

/-- Reads a field of a configuration into it. -/
def readField? (config : Config) (name : String) (tree : Json.Tree) : Option Config :=
  match name with
  | "$schema" => (readSchema? tree).map fun schema => { config with schema }
  | "preset" => (readPreset? tree).map fun preset => { config with preset }
  | "rules" => (readRules? tree).map fun rules => { config with rules }
  | _ => some config

/-- Reads fields into a configuration. None of the known ones may be repeated;
    `seen` are those so far. -/
def readFields? (config : Config) (seen : List String) :
    List (List Json.StringPiece × Json.Tree) → Option Config
  | [] => some config
  | (key, tree) :: fields => do
    let name := String.ofList (← Json.decodeString? key)
    if fieldNames.contains name && seen.contains name then none
    let config ← config.readField? name tree
    readFields? config (name :: seen) fields

/-- Reads a configuration, an object or an array of its first fields. -/
def ofTree? : Json.Tree → Option Config
  | .object fields => readFields? {} [] fields
  | .array items =>
    if items.length ≤ fieldNames.length then
      (fieldNames.zip items).foldlM (fun config (name, tree) => config.readField? name tree) {}
    else none
  | _ => none

/-- Reads the text of a configuration. -/
def parse (text : String) : Except ConfigError Config :=
  match (Json.parseTree? text).bind ofTree? with
  | some config => .ok config
  | none => .error .malformed

/-- Reads the bytes of a file; `none` stands for a file that is not there. -/
def load (bytes : Option ByteArray) : Except ConfigError Config :=
  match bytes.bind String.fromUTF8? with
  | some text => parse text
  | none => .error .unreadable

/-- The configuration as a value. -/
def toJson (config : Config) : Json.Value :=
  .object
    ((config.schema.toList.map fun schema => ("$schema", .string schema)) ++
      [("preset", .string config.preset.word), ("rules", .object config.rules)])

end PugLint.Config
