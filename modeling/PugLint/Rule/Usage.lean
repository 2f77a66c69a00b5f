import PugLint.Casing
import PugLint.Mustache
import PugLint.Rule

/-!
# Rules for the expressions of a template

What the expressions of a template use: the bindings of the script, which are
noted and not reported, and `this`. A `textarea` has no expression in its text.
-/

namespace PugLint.Rule

/-- The bindings of setup scripts among some names. -/
def usedBindings (view : View) (names : List String) : List Finding :=
  (names.filter view.document.script.hasSetupBinding).map .usesBinding

/-- Notes the setup bindings that a template uses as components and in
    expressions. -/
def noteUsedBindings : Rule where
  info :=
    { name := "vue/script-setup-uses-vars"
      description := "Prevent `<script setup>` variables used in the template from being marked as unused"
      category := .base
      fixable := false
      severity := .error
      messages := [] }
  check :=
    both
      (atElements fun view _ element =>
        if element.kind == .tag && !Markup.isKnownElement element.name then
          usedBindings view
            [element.name, CaseStyle.camel.convert element.name,
             CaseStyle.pascal.convert element.name]
        else [])
      (both
        (atAttributes fun view _ raw value =>
          match Directive.parse? raw, value with
          | some _, some value =>
            usedBindings view (Expression.identifiers (Expression.unquote value))
          | _, _ => [])
        (atText fun view _ text =>
          (Mustache.expressions text).flatMap fun (_, expression) =>
            usedBindings view (Expression.identifiers (String.ofList expression))))

/-- Whether `this` may be used. -/
inductive ThisOption where
  /-- It may. -/
  | always
  /-- It may not. -/
  | never
  deriving DecidableEq, Repr, Inhabited

/-- The word for an option. -/
def ThisOption.word : ThisOption → String
  | always => "always"
  | never => "never"

/-- The bytes of an expression where a member of `this` is read. -/
def thisOffsets (expression : List Char) : List Nat :=
  (Expression.occurrences expression).filterMap fun occurrence =>
    let next := (Text.trimLeft occurrence.rest).head?
    if occurrence.name == "this".toList && (next == some '.' || next == some '[') then
      some (occurrence.offset expression)
    else none

/-- A use of `this` at a byte of the document, within a token. -/
def thisFinding (token : PlacedToken) (offset : Nat) : Finding :=
  let start := min offset token.stop
  .over "unexpected" [] (start, min (start + 4) token.stop)

/-- Expressions read no members of `this`. -/
def thisInTemplate (option : ThisOption) : Rule where
  info :=
    { name := "vue/this-in-template"
      description := "Disallow usage of `this` in template"
      category := .recommended
      fixable := false
      severity := .warning
      messages := [("unexpected", "Unexpected usage of 'this'.")] }
  options := .object [("option", .string option.word)]
  check :=
    if option == .always then fun _ _ => []
    else both
      (atAttributes fun _ token raw value =>
        match Directive.parse? raw, value with
        | some _, some value =>
          (thisOffsets (Expression.unquoteChars value.toList)).map fun offset =>
            thisFinding token (token.expressionStart value + offset)
        | _, _ => [])
      (atText fun _ token text =>
        (Mustache.expressions text).flatMap fun (first, expression) =>
          (thisOffsets expression).map fun offset =>
            thisFinding token (token.start + first + offset))

/-- The text of a `textarea` is no expression. -/
def noTextareaMustache : Rule where
  info :=
    { name := "vue/no-textarea-mustache"
      description := "Disallow mustaches in `<textarea>`"
      category := .essential
      fixable := false
      severity := .error
      messages := [("unexpected", "Unexpected mustache. Use 'v-model' instead.")] }
  check := atText fun view token text =>
    if view.owner?.any (·.name == "textarea") && Mustache.isWhole (Text.trim text.toList) then
      [.over "unexpected" [] (token.start, token.stop)]
    else []

end PugLint.Rule
