import PugLint.Mustache
import PugLint.Rule

/-!
# Rules for what is no longer supported

Filters, written with a single bar, and the `$scopedSlots` property.
-/

namespace PugLint.Rule

/-- The property that is no longer supported. -/
def scopedSlots : String := "$scopedSlots"

/-- The bytes of a directive value where the deprecated property is read. The
    left side of a `v-for` binds names and reads none. -/
def scopedSlotsOffsets (directive : Directive) (expression : List Char) : List Nat :=
  let offsets := (Expression.occurrences expression).filterMap fun occurrence =>
    if occurrence.name == scopedSlots.toList then some (occurrence.offset expression) else none
  if directive.is "for" then
    match Expression.splitIteration? expression with
    | some (left, _) => offsets.filter (Text.byteLength left + 4 ≤ ·)
    | none => []
  else offsets

/-- Every use of the deprecated property is reported and can be replaced. -/
def noScopedSlots : Rule where
  info :=
    { name := "vue/no-deprecated-dollar-scopedslots-api"
      description := "Disallow using deprecated `$scopedSlots` (in Vue.js 3.0.0+)"
      category := .essential
      fixable := true
      severity := .error
      messages := [("deprecated", "The `$scopedSlots` is deprecated.")] }
  check := atAttributes fun _ token raw value =>
    match Directive.parse? raw, value with
    | some directive, some value =>
      (scopedSlotsOffsets directive (Expression.unquoteChars value.toList)).map fun offset =>
        let start := token.expressionStart value + offset
        let stop := start + scopedSlots.utf8ByteSize
        let fix := (token.edit? start stop "$slots").map fun edit =>
          ⟨"Replace `$scopedSlots` with `$slots`", [edit]⟩
        .problem "deprecated" [] start stop fix
    | _, _ => []

/-- Whether a text has a bar that is not next to another one; `afterBar` tells
    whether a bar stands in front of it. -/
def hasSingleBar (afterBar : Bool) : List Char → Bool
  | [] => false
  | c :: cs =>
    (c == '|' && !afterBar && cs.head? != some '|') || hasSingleBar (c == '|') cs

/-- Whether an expression applies a filter. -/
def hasFilter (expression : List Char) : Bool :=
  hasSingleBar false expression

/-- Expressions apply no filters. -/
def noFilter : Rule where
  info :=
    { name := "vue/no-deprecated-filter"
      description := "Disallow using deprecated filters syntax (in Vue.js 3.0.0+)"
      category := .essential
      fixable := false
      severity := .error
      messages := [("noDeprecatedFilter", "Filters are deprecated.")] }
  check :=
    both
      (atAttributes fun _ token raw value =>
        match Directive.parse? raw, value with
        | some _, some value =>
          if hasFilter (Expression.unquoteChars value.toList) then
            [.over "noDeprecatedFilter" [] (token.expressionRange value)]
          else []
        | _, _ => [])
      (atText fun _ token text =>
        if (Mustache.expressions text).any fun (_, expression) => hasFilter expression then
          [.over "noDeprecatedFilter" [] (token.start, token.stop)]
        else [])

end PugLint.Rule
