import PugLint.Casing
import PugLint.Message
import PugLint.Pattern.Name
import PugLint.Rule

/-!
# Rules for names

The spelling of the attributes of components and of components themselves. A
name that is spelled otherwise can be replaced.
-/

namespace PugLint.Rule

/-- How the attributes of components are spelled. -/
inductive Hyphenation where
  /-- With hyphens. -/
  | always
  /-- In camelCase. -/
  | never
  deriving DecidableEq, Repr, Inhabited

namespace Hyphenation

/-- The word for a spelling in a configuration. -/
def word : Hyphenation → String
  | always => "always"
  | never => "never"

/-- The convention that a spelling follows. -/
def style : Hyphenation → CaseStyle
  | always => .kebab
  | never => .camel

/-- The message about a name that is spelled otherwise. -/
def messageId : Hyphenation → String
  | always => "mustBeHyphenated"
  | never => "cannotBeHyphenated"

/-- Whether a name is plainly in order. -/
def accepts : Hyphenation → List Char → Bool
  | always, name => !name.any Char.isUpper
  | never, name => !name.contains '-'

end Hyphenation

/-- Whether a text stands anywhere in a name. -/
def isPartOf (name : List Char) (part : String) : Bool :=
  (Text.splitBefore? part.toList name).isSome

/-- The parts of attribute names that are always accepted, in front of those of
    attributes whose spelling is fixed. -/
def acceptedParts : List String := ["data-", "aria-", "slot-scope"]

/-- Whether an attribute name is not checked or in order. -/
def isAcceptedAttribute (option : Hyphenation) (ignored : List String) (name : List Char) :
    Bool :=
  (acceptedParts ++ Markup.fixedSvgAttributes ++ ignored).any (isPartOf name) ||
    option.accepts name

/-- The name that is checked of an attribute, and where it starts in what is
    written: the first place where it stands. Of the directives, only bindings
    with a static argument have one. -/
def checkedName? (raw : String) : Option (String × Nat) :=
  match Directive.parse? raw with
  | none => some (raw, 0)
  | some directive =>
    if directive.is "bind" then do
      let argument ← directive.staticArgument?
      let (before, _) ← Text.splitBefore? argument.toList raw.toList
      return (argument, Text.byteLength before)
    else none

/-- The attributes of components follow one spelling; names with one of the
    parts in `ignored` are left alone. -/
def attributeHyphenation (option : Hyphenation) (ignored : List String) : Rule where
  info :=
    { name := "vue/attribute-hyphenation"
      description := "Enforce attribute naming style on custom components in template"
      category := .stronglyRecommended
      fixable := true
      severity := .warning
      messages :=
        [("mustBeHyphenated", "Attribute '" ++ Message.slot "text" ++ "' must be hyphenated."),
         ("cannotBeHyphenated", "Attribute '" ++ Message.slot "text" ++ "' can't be hyphenated.")] }
  options := .object [("ignore", .ofStrings ignored), ("option", .string option.word)]
  check := atAttributes fun view token raw _ =>
    match view.owner?, checkedName? raw with
    | some element, some (name, offset) =>
      if element.kind == .mixin || Markup.isKnownElement element.name || name == "" ||
          isAcceptedAttribute option ignored name.toList then []
      else
        let (start, stop) := token.nameRange
        -- Only the name is replaced; what stands around it in the attribute stays.
        let edit := token.edit? (start + offset) (start + offset + name.utf8ByteSize)
          (option.style.convertExact name)
        let fix := edit.map fun edit => ⟨"Rename to " ++ option.style.spelling, [edit]⟩
        [.problem option.messageId [("text", raw)] start stop fix]
    | _, _ => []

/-- How components are spelled, and which of them are checked. -/
structure ComponentCasing where
  /-- The convention. -/
  style : CaseStyle := .pascal
  /-- Whether only components that a script registers are checked. -/
  registeredOnly : Bool := true
  /-- The patterns of names that are not checked, as written and as read. -/
  ignores : List (String × NamePattern) := []
  deriving Inhabited

namespace ComponentCasing

/-- Whether a name is that of a component registered in PascalCase, in this or
    another spelling. -/
def isRegistered (script : ScriptInfo) (name : String) : Bool :=
  (script.registeredComponents.filter CaseStyle.pascal.check).any fun registered =>
    registered == name || registered == CaseStyle.pascal.convert name

/-- Whether an element of a given name is checked. -/
def checks (casing : ComponentCasing) (script : ScriptInfo) (name : String) : Bool :=
  !casing.ignores.any (·.2.isMatch name) &&
    if casing.registeredOnly then isRegistered script name else !Markup.isKnownElement name

/-- The options in the form of a configuration. -/
def toJson (casing : ComponentCasing) : Json.Value :=
  .array
    [.string casing.style.spelling,
     .object
      [("ignores", .ofStrings (casing.ignores.map Prod.fst)),
       ("registeredComponentsOnly", .bool casing.registeredOnly)]]

end ComponentCasing

/-- Components follow one spelling. -/
def componentCasing (casing : ComponentCasing) : Rule where
  info :=
    { name := "vue/component-name-in-template-casing"
      description := "Enforce specific casing for the component naming style in template"
      category := .stronglyRecommended
      fixable := true
      severity := .warning
      messages :=
        [("incorrectCase", "Component name \"" ++ Message.slot "name" ++ "\" is not " ++ Message.slot "caseType" ++ ".")] }
  options := casing.toJson
  check := atElements fun view token element =>
    let name := element.name
    if element.kind == .tag && !casing.style.check name &&
        casing.checks view.document.script name then
      let converted := casing.style.convertExact name
      let fix := (token.edit? token.start token.stop converted).map fun edit =>
        ⟨"Rename to " ++ converted, [edit]⟩
      [.problem "incorrectCase" [("name", name), ("caseType", casing.style.spelling)]
        token.start token.stop fix]
    else []

end PugLint.Rule
