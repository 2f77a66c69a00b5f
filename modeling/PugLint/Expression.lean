import PugLint.Text.Blank
import PugLint.Text.Bytes
import PugLint.Text.Letter
import PugLint.Text.Search

/-!
# Expressions in attribute values

Attribute values are kept as written, quotes included, and expressions in them
are read character by character: strings are skipped, and a name after a dot
names a member and is no identifier of its own.

* `unquote`: the text inside one pair of quotes;
* `identifiers`: the free-standing identifiers of an expression in their order;
* `Iteration.parse?`: the two sides of a `v-for`.
-/

namespace PugLint.Expression

/-- The three quotes of strings. -/
def isQuote (c : Char) : Bool :=
  c == '"' || c == '\'' || c == '\x60'

/-- The text inside a pair of equal quotes, if there is one. -/
def quoted? : List Char → Option (List Char)
  | c :: cs =>
    if isQuote c && cs.getLast? == some c then some cs.dropLast else none
  | [] => none

/-- A value without one pair of matching quotes. -/
def unquoteChars (value : List Char) : List Char :=
  (quoted? value).getD value

/-- A value without one pair of matching quotes. -/
def unquote (value : String) : String :=
  String.ofList (unquoteChars value.toList)

/-- A value is empty when it is missing, or blank inside its quotes. -/
def isEmptyValue (value : Option String) : Bool :=
  match value with
  | some v => (Text.trim (unquoteChars v.toList)).isEmpty
  | none => true

/-- How many bytes of a value stand before its unquoted text. -/
def unquotedOffset (value : String) : Nat :=
  if (quoted? value.toList).isSome then 1 else 0

/-- The characters that may begin an identifier. -/
def isIdentifierStart (c : Char) : Bool :=
  Text.isAlphabetic c || c == '_' || c == '$'

/-- The characters that may continue an identifier. -/
def isIdentifierChar (c : Char) : Bool :=
  Text.isAlphanumeric c || c == '_' || c == '$'

/-- Whether a text is one identifier. -/
def isIdentifierChars : List Char → Bool
  | c :: cs => isIdentifierStart c && cs.all isIdentifierChar
  | [] => false

/-- Whether a text is one identifier. -/
def isIdentifier (s : String) : Bool :=
  isIdentifierChars s.toList

/-- What follows a string whose opening `quote` has been read. A backslash
    escapes the character after it; an unclosed string has nothing after it. -/
def skipString (quote : Char) : List Char → List Char
  | [] => []
  | '\\' :: _ :: cs => skipString quote cs
  | c :: cs => if c == quote then cs else skipString quote cs

theorem length_skipString_le (quote : Char) (cs : List Char) :
    (skipString quote cs).length ≤ cs.length := by
  fun_induction skipString quote cs <;> simp_all <;> omega

/-- An identifier where it stands in an expression. -/
structure Occurrence where
  /-- The identifier. -/
  name : List Char
  /-- The rest of the expression behind it. -/
  rest : List Char
  deriving DecidableEq, Repr, Inhabited

/-- The free-standing identifiers of an expression in their order; `afterDot`
    tells whether the last character before it that is not blank is a dot. -/
def occurrencesFrom (afterDot : Bool) : List Char → List Occurrence
  | [] => []
  | c :: cs =>
    if isQuote c then occurrencesFrom false (skipString c cs)
    else if isIdentifierStart c then
      let rest := cs.dropWhile isIdentifierChar
      -- The name of a member is no identifier of its own.
      if afterDot then occurrencesFrom false rest
      else ⟨c :: cs.takeWhile isIdentifierChar, rest⟩ :: occurrencesFrom false rest
    else if Text.isBlank c then occurrencesFrom afterDot cs
    else occurrencesFrom (c == '.') cs
termination_by cs => cs.length
decreasing_by
  · have := length_skipString_le c cs
    simp only [List.length_cons]; omega
  · have := (List.dropWhile_suffix (l := cs) isIdentifierChar).length_le
    simp only [List.length_cons]; omega
  · have := (List.dropWhile_suffix (l := cs) isIdentifierChar).length_le
    simp only [List.length_cons]; omega
  · simp
  · simp

/-- The free-standing identifiers of an expression in their order. -/
def occurrences (expression : List Char) : List Occurrence :=
  occurrencesFrom false expression

/-- The byte where an identifier stands in the expression it was found in. -/
def Occurrence.offset (occurrence : Occurrence) (expression : List Char) : Nat :=
  Text.byteLength expression - Text.byteLength occurrence.rest -
    Text.byteLength occurrence.name

/-- The free-standing identifiers of an expression, in their order. -/
def identifiers (expression : String) : List String :=
  (occurrences expression.toList).map fun occurrence => String.ofList occurrence.name

/-- The two sides of a `v-for`: what is bound and what is run through. -/
structure Iteration where
  /-- The identifiers of the left side, as they stand in it. -/
  aliases : List String
  /-- The right side without blanks around it. -/
  iterable : String
  deriving DecidableEq, Repr, Inhabited

/-- Cuts an expression at the first ` in ` or ` of `. -/
def splitIteration? (expression : List Char) : Option (List Char × List Char) :=
  let cut (word : String) : Option (List Char × List Char) :=
    (Text.splitBefore? word.toList expression).map fun (left, rest) => (left, rest.drop 4)
  match cut " in ", cut " of " with
  -- Both words stand in the expression: the one in front counts.
  | some a, some b => some (if a.1.length ≤ b.1.length then a else b)
  | some a, none => some a
  | none, b => b

/-- Reads the unquoted value of a `v-for`. -/
def Iteration.parse? (expression : String) : Option Iteration :=
  (splitIteration? expression.toList).map fun (left, right) =>
    { aliases := identifiers (String.ofList (Text.trim left))
      iterable := String.ofList (Text.trim right) }

/-- Whether the right side is a plain identifier. -/
def Iteration.iterableIsIdentifier (iteration : Iteration) : Bool :=
  isIdentifier iteration.iterable

end PugLint.Expression
