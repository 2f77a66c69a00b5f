import PugLint.Json.Value
import PugLint.Registry

/-!
# Configurations

A configuration names a preset and settings of rules. A setting is a level, or
an array of a level and the options of the rule; an empty array says nothing.
How options are read from values is left open.

* `Rule.build?`: the rule of a given name with options;
* `Config.registry`: the preset with the settings applied in the order of the
  names of the rules.
-/

namespace PugLint

/-! ### Rules from options -/

/-- Readings of the options of rules, each from one value. -/
class OptionDecoder where
  /-- Which attributes may be given both as they are and bound. -/
  coexistence? : Json.Value → Option Rule.Coexistence
  /-- Whether a `v-if` may ask about what a `v-for` binds. -/
  allowsAlias? : Json.Value → Option Bool
  /-- The modifiers that a `v-on` may have as well. -/
  modifiers? : Json.Value → Option (List String)
  /-- The spelling of attributes. -/
  hyphenation? : Json.Value → Option Rule.Hyphenation
  /-- The parts of attributes whose spelling is not checked. -/
  ignoredParts? : Json.Value → Option (List String)
  /-- A string. -/
  string? : Json.Value → Option String
  /-- The patterns of components that are not checked, and whether only registered
      ones are. -/
  components? : Json.Value → Option (List String × Bool)
  /-- Whether `this` may be used. -/
  thisOption? : Json.Value → Option Rule.ThisOption

/-- An option, decoded, or a default if it is not there. -/
def decodeOption? {α : Type} (option : Option Json.Value) (decode : Json.Value → Option α)
    (missing : α) : Option α :=
  match option with
  | some value => decode value
  | none => some missing

namespace Rule

/-- The spelling of components with a given name; any name but `kebab-case` stands
    for PascalCase. -/
def caseStyleOfName (name : String) : CaseStyle :=
  if name == CaseStyle.kebab.spelling then .kebab else .pascal

/-- The rules that take no options. -/
def plainRules : List Rule :=
  [noteUsedBindings, noScopedSlots, noFilter, noRepeatedCondition, singleRoot, noTemplateKey,
   noTextareaMustache, requireComponentIs, requireKey, requireExact, validRoot, validElse,
   validElseIf, validFor, validIf]

section Options

variable [RegexEngine]

/-- Reads patterns, each kept as written beside what it was read as. -/
def decodePatterns? (patterns : List String) : Option (List (String × NamePattern)) :=
  patterns.mapM fun pattern => (NamePattern.parse? pattern).map (pattern, ·)

variable [OptionDecoder]

open OptionDecoder

/-- Reads how components are spelled, from the options of a setting. -/
def ComponentCasing.ofOptions? (options : List Json.Value) : Option ComponentCasing := do
  let style ← decodeOption? options[0]? (fun value => (string? value).map caseStyleOfName) .pascal
  let (ignores, registeredOnly) ← decodeOption? options[1]? components? ([], true)
  let ignores ← decodePatterns? ignores
  return { style, registeredOnly, ignores }

/-- The rules that take options, each with a function that reads them. -/
def configurableRules : List (String × (List Json.Value → Option Rule)) :=
  [("vue/no-duplicate-attributes", fun options =>
      (decodeOption? options[0]? coexistence? {}).map noDuplicateAttributes),
   ("vue/no-use-v-if-with-v-for", fun options =>
      (decodeOption? options[0]? allowsAlias? false).map noConditionedIteration),
   ("vue/valid-v-on", fun options =>
      (decodeOption? options[0]? modifiers? []).map validOn),
   ("vue/attribute-hyphenation", fun options => do
      let option ← decodeOption? options[0]? hyphenation? .always
      let ignored ← decodeOption? options[1]? ignoredParts? []
      return attributeHyphenation option ignored),
   ("vue/component-name-in-template-casing", fun options =>
      (ComponentCasing.ofOptions? options).map componentCasing),
   ("vue/this-in-template", fun options =>
      (decodeOption? options[0]? thisOption? .never).map thisInTemplate)]

end Options

end Rule

/-! ### Configurations -/

/-- What is wrong with a configuration. -/
inductive ConfigError where
  /-- The file cannot be read. -/
  | unreadable
  /-- The text is no configuration. -/
  | malformed
  /-- There is no such rule. -/
  | unknownRule (rule : String)
  /-- The level of a rule is none. -/
  | unknownSeverity (rule : String) (value : Json.Value)
  /-- The options of a rule cannot be read. -/
  | invalidOptions (rule : String)
  deriving Inhabited

/-- The message of an error, if it has one. -/
def ConfigError.message? : ConfigError → Option String
  | unreadable => none
  | malformed => none
  | unknownRule rule => some ("unknown rule '" ++ rule ++ "'")
  | unknownSeverity rule value =>
    some ("unknown severity " ++ Json.compact value ++ " for '" ++ rule ++ "'")
  | invalidOptions rule => some ("invalid options for '" ++ rule ++ "'")

/-- The level of a setting. -/
inductive RuleLevel where
  /-- The rule does not run. -/
  | off
  /-- The rule warns. -/
  | warn
  /-- The rule reports errors. -/
  | error
  deriving DecidableEq, Repr, Inhabited

/-- Reads a level, a word or a number. -/
def RuleLevel.parse? : Json.Value → Option RuleLevel
  | .string "off" => some off
  | .string "warn" => some warn
  | .string "error" => some error
  | .number (.natural 0) => some off
  | .number (.natural 1) => some warn
  | .number (.natural 2) => some error
  | _ => none

/-- The severity that a level stands for. -/
def RuleLevel.severity? : RuleLevel → Option Severity
  | off => none
  | warn => some .warning
  | error => some .error

/-- A configuration. -/
structure Config where
  /-- A reference to a description of configurations. -/
  schema : Option String := none
  /-- The rules to start from. -/
  preset : Preset := .recommended
  /-- The settings by the names of the rules, which come in order. -/
  rules : List (String × Json.Value) := []
  deriving Inhabited

/-- Whether a rule of this name should be one of this linter. -/
def isOwnRuleName (name : String) : Bool :=
  "vue/".toList.isPrefixOf name.toList

section Rules

variable [RegexEngine] [OptionDecoder]

/-- Whether there is a rule of a given name. -/
def isRuleName (name : String) : Bool :=
  Rule.plainRules.any (·.name == name) || Rule.configurableRules.any (·.1 == name)

/-- The rule of a given name with options, if there is one. -/
def Rule.build? (name : String) (options : List Json.Value) : Except ConfigError (Option Rule) :=
  match Rule.plainRules.find? (·.name == name), Rule.configurableRules.lookup name with
  | some rule, _ => .ok (some rule)
  | none, some read =>
    match read options with
    | some rule => .ok (some rule)
    | none => .error (.invalidOptions name)
  | none, none => if isOwnRuleName name then .error (.unknownRule name) else .ok none

end Rules

namespace Config

/-- The level and the options of a setting; an empty array has none. -/
def splitSetting? : Json.Value → Option (Json.Value × List Json.Value)
  | .array (level :: options) => some (level, options)
  | .array [] => none
  | level => some (level, [])

variable [RegexEngine] [OptionDecoder]

/-- Applies a setting to a registry. A rule that is switched on goes behind all
    others. -/
def applySetting (registry : Registry) (name : String) (setting : Json.Value) :
    Except ConfigError Registry :=
  match splitSetting? setting with
  | none => .ok registry
  | some (level, options) =>
    match RuleLevel.parse? level with
    | none => .error (.unknownSeverity name level)
    | some level =>
      match level.severity? with
      | none => .ok (registry.erase name)
      | some severity => do
        match ← Rule.build? name options with
        | some rule => return (registry.erase name).registerWith rule severity
        | none => return registry

/-- The registry of a configuration. -/
def registry (config : Config) : Except ConfigError Registry :=
  config.rules.foldlM (fun registry (name, setting) => applySetting registry name setting)
    (.ofPreset config.preset)

end Config

end PugLint
