import PugLint.Rule

/-!
# Rules for conditional chains

A `v-else` or `v-else-if` continues the chain of the element in front of it, an
element takes part in its chain with one directive, and no branch repeats the
condition of an earlier one. A directive gets one message, the first that
applies.
-/

namespace PugLint.Rule

/-- The first message whose condition holds. -/
def firstMessage? (messages : List (Bool × String)) : Option String :=
  (messages.find? Prod.fst).map Prod.snd

/-- At most one problem with a directive of an element, at its name. -/
def atConditional (name : String)
    (messages : View → Element → Directive → Option String → List (Bool × String)) :
    Event → View → List Finding :=
  atDirective name fun view token directive value =>
    match view.owner? with
    | some element =>
      (firstMessage? (messages view element directive value)).toList.map fun messageId =>
        .over messageId [] token.nameRange
    | none => []

/-- A `v-if` stands alone on its element and has a condition. -/
def validIf : Rule where
  info :=
    { name := "vue/valid-v-if"
      description := "Enforce valid `v-if` directives"
      category := .essential
      fixable := false
      severity := .error
      messages :=
        [("withVElse", "'v-if' and 'v-else' directives can't exist on the same element. You may want 'v-else-if' directives."),
         ("withVElseIf", "'v-if' and 'v-else-if' directives can't exist on the same element."),
         ("unexpectedArgument", "'v-if' directives require no argument."),
         ("unexpectedModifier", "'v-if' directives require no modifier."),
         ("expectedValue", "'v-if' directives require that attribute value.")] }
  check := atConditional "if" fun view element directive value =>
    [(view.hasDirective element "else", "withVElse"),
     (view.hasDirective element "else-if", "withVElseIf"),
     (directive.argument.isSome, "unexpectedArgument"),
     (!directive.modifiers.isEmpty, "unexpectedModifier"),
     (Expression.isEmptyValue value, "expectedValue")]

/-- A `v-else-if` continues a chain, stands alone on its element and has a
    condition. -/
def validElseIf : Rule where
  info :=
    { name := "vue/valid-v-else-if"
      description := "Enforce valid `v-else-if` directives"
      category := .essential
      fixable := false
      severity := .error
      messages :=
        [("missingVIf", "'v-else-if' directives require being preceded by the element which has a 'v-if' or 'v-else-if' directive."),
         ("withVIf", "'v-else-if' and 'v-if' directives can't exist on the same element."),
         ("withVElse", "'v-else-if' and 'v-else' directives can't exist on the same element."),
         ("unexpectedArgument", "'v-else-if' directives require no argument."),
         ("unexpectedModifier", "'v-else-if' directives require no modifier."),
         ("expectedValue", "'v-else-if' directives require that attribute value.")] }
  check := atConditional "else-if" fun view element directive value =>
    [(view.trackers.chainBefore.isNone, "missingVIf"),
     (view.hasDirective element "if", "withVIf"),
     (view.hasDirective element "else", "withVElse"),
     (directive.argument.isSome, "unexpectedArgument"),
     (!directive.modifiers.isEmpty, "unexpectedModifier"),
     (Expression.isEmptyValue value, "expectedValue")]

/-- A `v-else` continues a chain, stands alone on its element and has no
    value. -/
def validElse : Rule where
  info :=
    { name := "vue/valid-v-else"
      description := "Enforce valid `v-else` directives"
      category := .essential
      fixable := false
      severity := .error
      messages :=
        [("missingVIf", "'v-else' directives require being preceded by the element which has a 'v-if' or 'v-else-if' directive."),
         ("withVIf", "'v-else' and 'v-if' directives can't exist on the same element. You may want 'v-else-if' directives."),
         ("withVElseIf", "'v-else' and 'v-else-if' directives can't exist on the same element."),
         ("unexpectedArgument", "'v-else' directives require no argument."),
         ("unexpectedModifier", "'v-else' directives require no modifier."),
         ("unexpectedValue", "'v-else' directives require no attribute value.")] }
  check := atConditional "else" fun view element directive value =>
    [(view.trackers.chainBefore.isNone, "missingVIf"),
     (view.hasDirective element "if", "withVIf"),
     (view.hasDirective element "else-if", "withVElseIf"),
     (directive.argument.isSome, "unexpectedArgument"),
     (!directive.modifiers.isEmpty, "unexpectedModifier"),
     (value.isSome, "unexpectedValue")]

/-- Conditions are compared as written, without the blanks around them. -/
def noRepeatedCondition : Rule where
  info :=
    { name := "vue/no-dupe-v-else-if"
      description := "Disallow duplicate conditions in `v-if` / `v-else-if` chains"
      category := .essential
      fixable := false
      severity := .error
      messages :=
        [("unexpected", "This branch can never execute. Its condition is a duplicate or covered by previous conditions in the `v-if` / `v-else-if` chain.")] }
  check := atDirective "else-if" fun view token _ value =>
    let condition := Conditional.conditionOf value
    let isRepeated := view.trackers.chainBefore.any (·.conditions.contains condition)
    if value.isSome && condition != "" && isRepeated then
      [.over "unexpected" [] (token.expressionRange (value.getD ""))]
    else []

end PugLint.Rule
