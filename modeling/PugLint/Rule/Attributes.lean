import PugLint.Message
import PugLint.Rule

/-!
# Rules for the attributes of an element

No attribute is given twice, and a `component` says what it is.
-/

namespace PugLint.Rule

/-- The name of an attribute without the mark of a binding, and whether it has
    one; listeners have no such name. -/
def attributeKey? (raw : String) : Option (String × Bool) :=
  match raw.toList with
  | '@' :: _ => none
  | 'v' :: '-' :: 'o' :: 'n' :: ':' :: _ => none
  | 'v' :: '-' :: 'b' :: 'i' :: 'n' :: 'd' :: ':' :: rest => some (String.ofList rest, true)
  | ':' :: rest => some (String.ofList rest, true)
  | _ => some (raw, false)

/-- Which attributes may be given both as they are and bound. -/
structure Coexistence where
  /-- Whether `class` may. -/
  classes : Bool := true
  /-- Whether `style` may. -/
  styles : Bool := true
  deriving DecidableEq, Repr, Inhabited

/-- Whether an attribute may be given both as it is and bound. -/
def Coexistence.allows (coexistence : Coexistence) (name : String) : Bool :=
  let lower := name.map Char.toLower
  (coexistence.classes && lower == "class") || (coexistence.styles && lower == "style")

/-- No attribute is given twice in a list, bound or not. -/
def noDuplicateAttributes (coexistence : Coexistence) : Rule where
  info :=
    { name := "vue/no-duplicate-attributes"
      description := "Disallow duplication of attributes"
      category := .essential
      fixable := false
      severity := .error
      messages := [("duplicateAttribute", "Duplicate attribute '" ++ Message.slot "name" ++ "'.")] }
  options := .object
    [("allowCoexistClass", .bool coexistence.classes),
     ("allowCoexistStyle", .bool coexistence.styles)]
  check := atAttributes fun view token raw _ =>
    match attributeKey? raw with
    | some (name, isBound) =>
      let earlier := (view.trackers.scope.filter (· < view.index)).filterMap fun i =>
        (view.token? i).bind fun token => token.attribute?.bind fun (raw, _) => attributeKey? raw
      let isDuplicate := earlier.any fun (earlierName, earlierBound) =>
        earlierName == name && !(coexistence.allows name && earlierBound != isBound)
      if isDuplicate then [.over "duplicateAttribute" [("name", name)] token.nameRange] else []
    | none => []

/-- A `component` has a bound `is` attribute. -/
def requireComponentIs : Rule where
  info :=
    { name := "vue/require-component-is"
      description := "Require `v-bind:is` of `<component>` elements"
      category := .essential
      fixable := false
      severity := .error
      messages := [("requireComponentIs", "Expected 'component' elements to have 'v-bind:is' attribute.")] }
  check := atElements fun view token element =>
    if element.kind == .tag && element.name == "component" &&
        (view.findAttribute? element [":is", "v-bind:is"]).isNone then
      [.over "requireComponentIs" [] (token.start, token.stop)]
    else []

end PugLint.Rule
