/-!
# Directives

An attribute whose name starts with `v-`, or with one of the shorthands `:`,
`@` and `#`, is a directive: it has a name, an optional argument and a list of
modifiers, as in `v-on:click.stop`. The dots of a dynamic argument, written in
square brackets, start no modifier.
-/

namespace PugLint

/-- The parts of the name of a directive. -/
structure Directive where
  /-- The name of the attribute as written. -/
  raw : String
  /-- The name of the directive, without `v-`. -/
  name : String
  /-- The argument, static or in square brackets. -/
  argument : Option String
  /-- The modifiers in their order. -/
  modifiers : List String
  /-- Whether a shorthand was used. -/
  shorthand : Bool
  deriving DecidableEq, Repr, Inhabited

namespace Directive

/-- Cuts off the argument: everything before the first dot that is outside all
    square brackets, where `depth` counts those open. -/
def splitArgument (depth : Nat) : List Char → List Char × List Char
  | [] => ([], [])
  | c :: cs =>
    if c == '.' && depth == 0 then ([], c :: cs)
    else
      let depth := if c == '[' then depth + 1 else if c == ']' then depth - 1 else depth
      let (argument, rest) := splitArgument depth cs
      (c :: argument, rest)

/-- The pieces of a text between its dots. -/
def splitDots : List Char → List (List Char)
  | [] => [[]]
  | c :: cs =>
    if c == '.' then [] :: splitDots cs
    else
      match splitDots cs with
      | piece :: pieces => (c :: piece) :: pieces
      | [] => [[c]]

/-- The modifiers in a text that starts with a dot. -/
def splitModifiers : List Char → List String
  | '.' :: cs => (splitDots cs).map String.ofList
  | _ => []

/-- The directive `name` with an argument and modifiers read from `rest`. -/
def withArgument (raw name : String) (shorthand : Bool) (rest : List Char) : Directive :=
  let (argument, modifiers) := splitArgument 0 rest
  { raw, name, shorthand
    argument := if argument.isEmpty then none else some (String.ofList argument)
    modifiers := splitModifiers modifiers }

/-- Reads the name of an attribute; plain attributes give `none`. -/
def parse? (raw : String) : Option Directive :=
  match raw.toList with
  | 'v' :: '-' :: rest =>
    let isNameChar (c : Char) := c != ':' && c != '.'
    let name := rest.takeWhile isNameChar
    if name.isEmpty then none
    else
      match rest.dropWhile isNameChar with
      | ':' :: rest => some (withArgument raw (String.ofList name) false rest)
      | rest => some ⟨raw, String.ofList name, none, splitModifiers rest, false⟩
  | ':' :: rest => some (withArgument raw "bind" true rest)
  | '@' :: rest => some (withArgument raw "on" true rest)
  | '#' :: rest => some (withArgument raw "slot" true rest)
  | _ => none

/-- Whether this is the directive of a given name. -/
def is (directive : Directive) (name : String) : Bool :=
  directive.name == name

/-- Whether an argument is written in square brackets. -/
def isDynamic (argument : String) : Bool :=
  argument.toList.head? == some '['

/-- Whether the argument is an expression in square brackets. -/
def hasDynamicArgument (directive : Directive) : Bool :=
  directive.argument.any isDynamic

/-- The argument, unless it is dynamic. -/
def staticArgument? (directive : Directive) : Option String :=
  directive.argument.filter (!isDynamic ·)

/-- Whether a modifier is present. -/
def hasModifier (directive : Directive) (modifier : String) : Bool :=
  directive.modifiers.contains modifier

end Directive

end PugLint
