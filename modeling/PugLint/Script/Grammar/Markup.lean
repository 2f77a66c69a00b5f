import PugLint.Script.Grammar.Expressions

/-!
# Markup in scripts

The rules for elements that stand in expressions. The tags of an element have
the same name; a fragment has tags without one.
-/

namespace PugLint.Script.Phrase

open Peg

/-- The names of tags that were found, in their order. -/
def tagNames (found : List (Tree Label)) : List (List Char) :=
  found.filterMap fun tree =>
    match tree with
    | .node .tagName [.leaf text] => some text
    | _ => none

/-- Whether the two tags of an element have the same name. -/
def haveSameName (found : List (Tree Label)) : Bool :=
  match tagNames found with
  | [first, second] => first == second
  | _ => false

/-- The name in a tag. -/
def tagName : Phrase := node .tagName (lexeme scanTagName)

/-- An attribute of a tag. -/
def markupAttribute : Phrase :=
  alt
    [braced (seq [punct "...", silent (symbol .assignment)]),
     seq [silent tagName, optSeq [punct "=", alt
       [token scanMarkupString, silent (braced (symbol .assignment)), silent (symbol .markup)]]]]

/-- What stands between tags. -/
def markupChild : Phrase :=
  alt
    [token skipMarkupText,
     silent (seq [exactly "\x7b", within Scope.bracketed (opt (alt
       [seq [punct "...", symbol .assignment], symbol .assignment])), punct "\x7d"]),
     silent (seq [ahead (exactly "<"), symbol .markup])]

/-- Markup. -/
def markup : Phrase :=
  let children : Phrase := many (silent (symbol .markupChild))
  let opening : Phrase := seq [punct "<", tagName, optSeq [typed, symbol .typeArguments],
    many (silent (symbol .markupAttribute))]
  alt
    [silent (seq [punct "<", punct ">", children, exactly "<", punct "/", punct ">"]),
     silent (seq [opening, punct "/", punct ">"]),
     checked haveSameName
       (seq [opening, punct ">", children, exactly "<", punct "/", tagName, punct ">"])]

end PugLint.Script.Phrase
