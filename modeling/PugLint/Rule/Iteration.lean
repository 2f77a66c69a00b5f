import PugLint.Message
import PugLint.Rule

/-!
# Rules for iteration

A `v-for` says what is bound and what is run through; the elements that it
repeats have keys made from what it binds. A `template` is not rendered itself:
it hands the keys on to the elements in it.
-/

namespace PugLint.Rule

/-- The spellings of a bound key. -/
def boundKeyNames : List String := [":key", "v-bind:key"]

/-- Whether an expression uses one of the given names. -/
def usesAny (expression : String) (names : List String) : Bool :=
  (Expression.identifiers expression).any names.contains

/-! ### Aliases -/

/-- The pieces of a text between the commas that stand outside all brackets,
    where `depth` counts the open ones. -/
def splitCommas (depth : Nat) : List Char → List (List Char)
  | [] => [[]]
  | c :: cs =>
    if c == ',' && depth == 0 then [] :: splitCommas depth cs
    else
      let depth :=
        if c == '\x7b' || c == '[' || c == '(' then depth + 1
        else if c == '\x7d' || c == ']' || c == ')' then depth - 1
        else depth
      match splitCommas depth cs with
      | piece :: pieces => (c :: piece) :: pieces
      | [] => [[c]]

/-- A text without one pair of parentheses around it. -/
def stripParentheses (text : List Char) : List Char :=
  match text with
  | '(' :: rest => if rest.getLast? == some ')' then rest.dropLast else text
  | _ => text

/-- The aliases on the left side of a `v-for`, as written. -/
def aliasTexts (left : List Char) : List (List Char) :=
  (splitCommas 0 (stripParentheses (Text.trim left))).map Text.trim

/-- Whether an alias is a pattern that takes a value apart. -/
def isPattern (text : List Char) : Bool :=
  text.head? == some '\x7b' || text.head? == some '['

/-- The first alias that is not allowed: the first one may be a pattern, all
    others are identifiers. -/
def invalidAlias? (left : List Char) : Option (List Char) :=
  match aliasTexts left with
  | first :: others =>
    if Expression.isIdentifierChars first || isPattern first then
      others.find? (!Expression.isIdentifierChars ·)
    else some first
  | [] => none

/-! ### Keys -/

/-- Whether an element renders a component. -/
def rendersComponent (view : View) (element : Element) : Bool :=
  !Markup.isKnownElement element.name ||
    (view.findAttribute? element ["is", ":is", "v-bind:is"]).isSome

/-- Whether a `v-for` of an element runs through something made from the given
    names. -/
def iteratesOver (view : View) (element : Element) (names : List String) : Bool :=
  let value := (view.findDirective? element "for").bind fun token =>
    token.attribute?.bind Prod.snd
  let iteration := value.bind fun v => Expression.Iteration.parse? (Expression.unquote v)
  iteration.any fun iteration => usesAny iteration.iterable names

/-- Whether the key of an element uses one of the given names. -/
def keyUses (key : PlacedToken) (names : List String) : Bool :=
  (key.attribute?.bind Prod.snd).any fun value => usesAny (Expression.unquote value) names

/-- The problems with the keys of an element under a `v-for` that binds
    `aliases`, down to so many levels; `own` tells whether the `v-for` is on the
    element itself. An element with a `v-for` of its own over what is bound is
    checked there. -/
def keyFindings (view : View) (aliases : List String) : Nat → Bool → Nat → List Finding
  | 0, _, _ => []
  | levels + 1, own, id =>
    match view.node? id with
    | none => []
    | some element =>
      match view.findAttribute? element boundKeyNames with
      | some key =>
        if keyUses key aliases then [] else [.over "keyUseFVorVars" [] (key.start, key.stop)]
      | none =>
        if element.name == "template" then
          -- A `template` passes the duty to have a key on to its children.
          (view.tree.children id).flatMap fun child =>
            if (view.node? child).any fun node => iteratesOver view node aliases then []
            else keyFindings view aliases levels false child
        else if own && rendersComponent view element then
          (view.token? element.token).toList.map fun token =>
            .over "requireKey" [] (token.start, token.stop)
        else []

/-- The problems with the value of a `v-for`. A value that is no iteration is
    left to others. -/
def iterationFindings (view : View) (token : PlacedToken) (value : String) : List Finding :=
  let expression := Expression.unquote value
  match Expression.Iteration.parse? expression, Expression.splitIteration? expression.toList with
  | some iteration, some (left, _) =>
    match invalidAlias? left with
    | some text => [.over "invalidAlias" [("text", String.ofList text)] token.valueRange]
    | none =>
      match view.ownerId? with
      | some id => keyFindings view iteration.aliases (view.tree.nodes.size + 1) true id
      | none => []
  | _, _ => []

/-- A `v-for` has neither argument nor modifiers, valid aliases, and keys that
    use them. -/
def validFor : Rule where
  info :=
    { name := "vue/valid-v-for"
      description := "Enforce valid `v-for` directives"
      category := .essential
      fixable := false
      severity := .error
      messages :=
        [("unexpectedArgument", "'v-for' directives require no argument."),
         ("unexpectedModifier", "'v-for' directives require no modifier."),
         ("expectedValue", "'v-for' directives require that attribute value."),
         ("invalidAlias", "Invalid alias '" ++ Message.slot "text" ++ "'."),
         ("requireKey", "Custom elements in iteration require 'v-bind:key' directives."),
         ("keyUseFVorVars", "Expected 'v-bind:key' directive to use the variables which are defined by the 'v-for' directive.")] }
  check := atDirective "for" fun view token directive value =>
    let atName (condition : Bool) (messageId : String) : List Finding :=
      if condition then [.over messageId [] token.nameRange] else []
    atName directive.argument.isSome "unexpectedArgument" ++
    atName (!directive.modifiers.isEmpty) "unexpectedModifier" ++
    atName (Expression.isEmptyValue value) "expectedValue" ++
    if Expression.isEmptyValue value then [] else iterationFindings view token (value.getD "")

/-- Whether an element only wraps others. -/
def isWrapper (name : String) : Bool :=
  name == "template" || name == "slot"

/-- Whether an element below another one, itself no wrapper, has a key. -/
def hasKeyedDescendant (view : View) (id : Nat) : Bool :=
  (view.tree.descendants id).any fun child =>
    (view.node? child).any fun node =>
      !isWrapper node.name && (view.findAttribute? node boundKeyNames).isSome

/-- Whether a repeated element can do without a key: it has one, wraps an
    element that has one, or is a component that may keep its own. -/
def needsNoKey (view : View) (id : Nat) (element : Element) : Bool :=
  (view.findAttribute? element boundKeyNames).isSome ||
    if isWrapper element.name then hasKeyedDescendant view id
    else view.isCustomComponent element

/-- A repeated element has a key. -/
def requireKey : Rule where
  info :=
    { name := "vue/require-v-for-key"
      description := "Require `v-bind:key` with `v-for` directives"
      category := .essential
      fixable := false
      severity := .error
      messages := [("requireKey", "Elements in iteration expect to have 'v-bind:key' directives.")] }
  check := atDirective "for" fun view token _ _ =>
    match view.ownerId?, view.owner? with
    | some id, some element =>
      if needsNoKey view id element then []
      else [.over "requireKey" [] (token.start, min (token.start + 5) token.stop)]
    | _, _ => []

/-- What a `v-if` next to a `v-for` with a given value is told. -/
def conditionedIteration (allowsAlias : Bool) (condition iterated : String) :
    List (String × List (String × String)) :=
  match Expression.Iteration.parse? iterated with
  | some iteration =>
    if usesAny condition iteration.aliases then
      let kind := if iteration.iterableIsIdentifier then "variable" else "expression"
      if allowsAlias then []
      else [("movedToComputed", [("iteratorName", iteration.iterable), ("kind", kind)])]
    else [("movedToWrapper", [])]
  | none => [("movedToWrapper", [])]

/-- A `v-if` does not stand next to a `v-for`; it may be allowed to if it asks
    about what the `v-for` binds. -/
def noConditionedIteration (allowsAlias : Bool) : Rule where
  info :=
    { name := "vue/no-use-v-if-with-v-for"
      description := "Disallow using `v-if` on the same element as `v-for`"
      category := .essential
      fixable := false
      severity := .error
      messages :=
        [("movedToWrapper", "This 'v-if' should be moved to the wrapper element."),
         ("movedToComputed", "The '" ++ Message.slot "iteratorName" ++ "' " ++ Message.slot "kind" ++ " inside 'v-for' directive should be replaced with a computed property that returns filtered array instead. You should not mix 'v-for' with 'v-if'.")] }
  options := .object [("allowUsingIterationVar", .bool allowsAlias)]
  check := atDirective "if" fun view token _ value =>
    let iterated := (view.owner?.bind fun element => view.findDirective? element "for").bind
      PlacedToken.attribute?
    match iterated with
    | some (_, iterated) =>
      let unquoted (value : Option String) := (value.map Expression.unquote).getD ""
      (conditionedIteration allowsAlias (unquoted value) (unquoted iterated)).map
        fun (messageId, data) => .over messageId data token.nameRange
    | none => []

/-- The spellings of a key. -/
def keyNames : List String := "key" :: boundKeyNames

/-- A `template` has no key, unless it is repeated. -/
def noTemplateKey : Rule where
  info :=
    { name := "vue/no-template-key"
      description := "Disallow `key` attribute on `<template>`"
      category := .essential
      fixable := false
      severity := .error
      messages := [("disallow", "'template' cannot be keyed. Place the key on real elements instead.")] }
  check
    | .exitAttributes, view =>
      if view.trackers.currentTag.any (·.2 == "template") then
        let attributes := view.trackers.scope.filterMap view.token?
        let named (names : List String) (token : PlacedToken) :=
          token.attribute?.any fun (name, _) => names.contains name
        let repeats (token : PlacedToken) :=
          (token.attribute?.bind fun (name, _) => Directive.parse? name).any (·.is "for")
        -- A repeated `template` may be keyed.
        if attributes.any repeats then []
        else
          ((attributes.filter (named keyNames)).getLast?).toList.map fun key =>
            .over "disallow" [] (key.start, key.stop)
      else []
    | _, _ => []

end PugLint.Rule
