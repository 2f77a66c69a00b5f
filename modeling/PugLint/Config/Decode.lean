import PugLint.Config.Settings
import PugLint.Json.Decode

/-!
# Decoding options

How the options of rules are read from values. Words stand for choices, and
records have a default for each of their fields.
-/

namespace PugLint.Rule

/-- Reads the word for a spelling of attributes. -/
def Hyphenation.decode? (value : Json.Value) : Option Hyphenation :=
  value.choice?.bind fun word =>
    [Hyphenation.always, Hyphenation.never].find? (·.word == word)

/-- Reads whether `this` may be used. -/
def ThisOption.decode? (value : Json.Value) : Option ThisOption :=
  value.choice?.bind fun word => [ThisOption.always, ThisOption.never].find? (·.word == word)

/-- Reads which attributes may be given both as they are and bound. -/
def Coexistence.decode? (value : Json.Value) : Option Coexistence := do
  let fields ← value.record? ["allowCoexistClass", "allowCoexistStyle"]
  let classes ← Json.Value.field? fields "allowCoexistClass" Json.Value.bool? true
  let styles ← Json.Value.field? fields "allowCoexistStyle" Json.Value.bool? true
  return { classes, styles }

/-- Reads whether a `v-if` may ask about what a `v-for` binds. -/
def decodeAllowsAlias? (value : Json.Value) : Option Bool := do
  let fields ← value.record? ["allowUsingIterationVar"]
  Json.Value.field? fields "allowUsingIterationVar" Json.Value.bool? false

/-- Reads a record with one list of strings. -/
def decodeStrings? (name : String) (value : Json.Value) : Option (List String) := do
  let fields ← value.record? [name]
  Json.Value.field? fields name Json.Value.strings? []

/-- Reads which components are checked. -/
def decodeComponents? (value : Json.Value) : Option (List String × Bool) := do
  let fields ← value.record? ["ignores", "registeredComponentsOnly"]
  let ignores ← Json.Value.field? fields "ignores" Json.Value.strings? []
  let registeredOnly ← Json.Value.field? fields "registeredComponentsOnly" Json.Value.bool? true
  return (ignores, registeredOnly)

/-- Options are read from words, records and lists of strings. -/
instance decoder : OptionDecoder where
  coexistence? := Coexistence.decode?
  allowsAlias? := decodeAllowsAlias?
  modifiers? := decodeStrings? "modifiers"
  hyphenation? := Hyphenation.decode?
  ignoredParts? := decodeStrings? "ignore"
  string? := Json.Value.string?
  components? := decodeComponents?
  thisOption? := ThisOption.decode?

/-- Reads how components are spelled, from an array of options. -/
def ComponentCasing.decode? [RegexEngine] : Json.Value → Option ComponentCasing
  | .array options => ofOptions? options
  | _ => none

end PugLint.Rule
