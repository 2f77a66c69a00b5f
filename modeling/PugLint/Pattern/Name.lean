/-!
# Patterns for names

A pattern is a name that stands for itself, or a regular expression between
slashes with flags behind it. The last slash of the text ends the expression,
which may not be empty. What regular expressions are, and what they match, is
left to an engine.

* `NamePattern.parse?`: the pattern that a text stands for;
* `NamePattern.isMatch`: whether a pattern matches a name.
-/

namespace PugLint

/-- How a regular expression is read. -/
structure RegexOptions where
  /-- Whether letters stand for both of their cases. -/
  caseInsensitive : Bool := false
  /-- Whether each line has a start and an end. -/
  multiLine : Bool := false
  /-- Whether a dot also stands for the end of a line. -/
  dotMatchesNewLine : Bool := false
  /-- Whether blanks in the expression mean nothing. -/
  ignoreWhitespace : Bool := false
  deriving DecidableEq, Repr, Inhabited

/-- An engine for regular expressions. -/
class RegexEngine where
  /-- The texts that an expression matches somewhere in, if it can be read. -/
  compile? : RegexOptions → String → Option (String → Bool)

/-- A pattern for names. -/
inductive NamePattern where
  /-- One name. -/
  | literal (name : String)
  /-- The names that a regular expression matches somewhere in. -/
  | regex (isMatch : String → Bool)

namespace NamePattern

/-- The expression and the flags of a pattern that is written as a regular
    expression. -/
def splitLiteral? (pattern : List Char) : Option (List Char × List Char) :=
  match pattern with
  | '/' :: rest =>
    let flags := (rest.reverse.takeWhile (· != '/')).reverse
    let source := rest.take (rest.length - flags.length - 1)
    if rest.contains '/' && !source.isEmpty then some (source, flags) else none
  | _ => none

/-- Whether a pattern is written as a regular expression. -/
def isRegexLiteral (pattern : String) : Bool :=
  (splitLiteral? pattern.toList).isSome

/-- The flags behind an expression; unknown ones are left out. -/
def optionsOf (letters : List Char) : RegexOptions where
  caseInsensitive := letters.contains 'i'
  multiLine := letters.contains 'm'
  dotMatchesNewLine := letters.contains 's'
  ignoreWhitespace := letters.contains 'x'

/-- Reads a pattern; `none` if its expression cannot be read. -/
def parse? [RegexEngine] (pattern : String) : Option NamePattern :=
  match splitLiteral? pattern.toList with
  | some (source, flags) =>
    (RegexEngine.compile? (optionsOf flags) (String.ofList source)).map regex
  | none => some (literal pattern)

/-- Whether a pattern matches a name. -/
def isMatch : NamePattern → String → Bool
  | literal text, name => text == name
  | regex isMatch, name => isMatch name

end NamePattern

end PugLint
