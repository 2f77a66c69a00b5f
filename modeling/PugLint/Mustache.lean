import PugLint.Text.Bytes
import PugLint.Text.Search

/-!
# Mustaches

Expressions in text stand between double braces on one line. A mustache ends at
the first pair of closing braces behind its opening ones.
-/

namespace PugLint.Mustache

/-- The mustache at the start of a text: its expression and the text behind it. -/
def read? (text : List Char) : Option (List Char × List Char) :=
  if "\x7b\x7b".toList.isPrefixOf text then
    match Text.splitBefore? "\x7d\x7d".toList (text.drop 2) with
    | some (expression, rest) =>
      if expression.contains '\n' then none else some (expression, rest.drop 2)
    | none => none
  else none

/-- The expressions of a text that starts at the byte `offset`, each with the
    byte where it starts, in at most `fuel` steps. -/
def expressionsFrom : Nat → Nat → List Char → List (Nat × List Char)
  | 0, _, _ => []
  | _, _, [] => []
  | fuel + 1, offset, c :: cs =>
    match read? (c :: cs) with
    | some (expression, rest) =>
      (offset + 2, expression) ::
        expressionsFrom fuel (offset + Text.byteLength expression + 4) rest
    | none => expressionsFrom fuel (offset + c.utf8Size) cs

/-- The expressions of a text, each with the byte where it starts. -/
def expressions (text : String) : List (Nat × List Char) :=
  expressionsFrom (text.length + 1) 0 text.toList

/-- Whether a text is one stretch from opening to closing braces. -/
def isWhole (text : List Char) : Bool :=
  let inner := (text.drop 2).take (text.length - 4)
  4 ≤ text.length && "\x7b\x7b".toList.isPrefixOf text &&
    Text.endsWith text "\x7d\x7d".toList && !inner.contains '\n'

end PugLint.Mustache
