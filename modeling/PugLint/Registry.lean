import PugLint.Rule.Attributes
import PugLint.Rule.Condition
import PugLint.Rule.Deprecation
import PugLint.Rule.Iteration
import PugLint.Rule.Listener
import PugLint.Rule.Naming
import PugLint.Rule.Root
import PugLint.Rule.Usage
import PugLint.Text.Digest

/-!
# Registries

The rules that a linter runs, in their order, each with the severity that it was
given. A rule registered again takes the place of the one with its name.

* `Registry.ofPreset`: the rules to start from;
* `Registry.fingerprint`: a digest that tells registries apart.
-/

namespace PugLint

/-- A registered rule. -/
structure RegistryEntry where
  /-- The rule. -/
  rule : Rule
  /-- The severity that it was given, if any. -/
  given : Option Severity := none

/-- The severity that a registered rule runs with. -/
def RegistryEntry.severity (entry : RegistryEntry) : Severity :=
  entry.given.getD entry.rule.info.severity

/-- The rules of a linter. -/
structure Registry where
  /-- The rules in the order of registration. -/
  entries : List RegistryEntry := []

namespace Registry

/-- The rules with their severities. -/
def rules (registry : Registry) : List (Rule × Severity) :=
  registry.entries.map fun entry => (entry.rule, entry.severity)

/-- The number of rules. -/
def size (registry : Registry) : Nat := registry.entries.length

/-- Whether a rule of a given name is registered. -/
def contains (registry : Registry) (name : String) : Bool :=
  registry.entries.any (·.rule.name == name)

/-- Registers a rule. One that takes the place of another keeps the severity that
    was given to it. -/
def register (registry : Registry) (rule : Rule) : Registry :=
  if registry.contains rule.name then
    ⟨registry.entries.map fun entry =>
      if entry.rule.name == rule.name then { entry with rule } else entry⟩
  else ⟨registry.entries ++ [{ rule := rule }]⟩

/-- Registers a rule and gives it a severity. -/
def registerWith (registry : Registry) (rule : Rule) (severity : Severity) : Registry :=
  ⟨(registry.register rule).entries.map fun entry =>
    if entry.rule.name == rule.name then { entry with given := some severity } else entry⟩

/-- Removes the rule of a given name. -/
def erase (registry : Registry) (name : String) : Registry :=
  ⟨registry.entries.filter (·.rule.name != name)⟩

/-- The registry of some rules. -/
def ofRules (rules : List Rule) : Registry :=
  rules.foldl register {}

/-- A digest of the names, severities and options of the rules. -/
def fingerprint (registry : Registry) : UInt64 :=
  registry.entries.foldl
    (fun digest entry =>
      [entry.rule.name, entry.severity.word, Json.compact entry.rule.options].foldl
        Text.extendDigest digest)
    (Text.digest "")

end Registry

/-! ### Presets -/

/-- The rules that prevent errors, behind the one that notes used bindings. -/
def essentialRules : List Rule :=
  [.noteUsedBindings, .noScopedSlots, .noFilter, .noRepeatedCondition,
   .noDuplicateAttributes {}, .noTemplateKey, .noTextareaMustache,
   .noConditionedIteration false, .requireComponentIs, .requireKey, .requireExact, .validRoot,
   .validElseIf, .validElse, .validFor, .validIf, .validOn []]

/-- The rules that make templates easier to read. -/
def readabilityRules : List Rule :=
  [.attributeHyphenation .always [], .componentCasing {}]

/-- The rules for consistency. -/
def consistencyRules : List Rule :=
  [.thisInTemplate .never]

/-- The sets of rules to start from. -/
inductive Preset where
  /-- The rules that prevent errors. -/
  | essential
  /-- Those, and the rules that make templates easier to read. -/
  | stronglyRecommended
  /-- Those, and the rules for consistency. -/
  | recommended
  /-- All rules. -/
  | all
  deriving DecidableEq, Repr, Inhabited

namespace Preset

/-- The word for a preset in a configuration. -/
def word : Preset → String
  | essential => "essential"
  | stronglyRecommended => "strongly-recommended"
  | recommended => "recommended"
  | all => "all"

/-- The preset with a given word. -/
def ofWord? (name : String) : Option Preset :=
  [essential, stronglyRecommended, recommended, all].find? (·.word == name)

/-- The rules of a preset. -/
def rules : Preset → List Rule
  | essential => essentialRules
  | stronglyRecommended => essentialRules ++ readabilityRules
  | recommended => essentialRules ++ readabilityRules ++ consistencyRules
  | all => essentialRules ++ readabilityRules ++ consistencyRules ++ [.singleRoot]

end Preset

/-- The registry of a preset. -/
def Registry.ofPreset (preset : Preset) : Registry :=
  .ofRules preset.rules

end PugLint
