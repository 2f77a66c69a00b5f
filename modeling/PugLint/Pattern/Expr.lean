import PugLint.Pattern.CharSet

/-!
# Regular expressions

Regular expressions and their matches. A match takes a set of places in a text
to the set of places where it can end, so that a sequence is a composition, an
alternative a union, and a repetition an iteration.

* `Expr.ends`: the places where matches end;
* `Expr.isMatch`: whether an expression matches somewhere in a text.
-/

namespace PugLint.Pattern

/-- Conditions on a place in a text. -/
inductive Assertion where
  /-- The start of the text. -/
  | startText
  /-- The end of the text. -/
  | endText
  /-- The start of a line; `crlf` tells whether a carriage return ends lines. -/
  | startLine (crlf : Bool)
  /-- The end of a line. -/
  | endLine (crlf : Bool)
  /-- The edge of a word; `ascii` tells whether words are of ASCII characters. -/
  | wordEdge (ascii : Bool)
  /-- Anywhere but at the edge of a word. -/
  | noWordEdge (ascii : Bool)
  /-- The start of a word. -/
  | wordStart (ascii : Bool)
  /-- The end of a word. -/
  | wordEnd (ascii : Bool)
  /-- No word in front. -/
  | noWordBefore (ascii : Bool)
  /-- No word behind. -/
  | noWordAfter (ascii : Bool)
  deriving DecidableEq, Repr, Inhabited

/-- Whether a character is part of words. -/
def isWordPart (ascii : Bool) (c : Char) : Bool :=
  if ascii then c.isAlphanum || c == '_' else Text.isWordChar c

/-- Whether a condition holds between two characters, missing at the ends. -/
def Assertion.holdsBetween (before after : Option Char) : Assertion → Bool
  | startText => before.isNone
  | endText => after.isNone
  | startLine false => before.isNone || before == some '\n'
  | startLine true =>
    before.isNone || before == some '\n' || (before == some '\r' && after != some '\n')
  | endLine false => after.isNone || after == some '\n'
  | endLine true =>
    after.isNone || after == some '\r' || (after == some '\n' && before != some '\r')
  | wordEdge ascii => before.any (isWordPart ascii) != after.any (isWordPart ascii)
  | noWordEdge ascii => before.any (isWordPart ascii) == after.any (isWordPart ascii)
  | wordStart ascii => !before.any (isWordPart ascii) && after.any (isWordPart ascii)
  | wordEnd ascii => before.any (isWordPart ascii) && !after.any (isWordPart ascii)
  | noWordBefore ascii => !before.any (isWordPart ascii)
  | noWordAfter ascii => !after.any (isWordPart ascii)

/-- Whether a condition holds at a place in a text. -/
def Assertion.holds (assertion : Assertion) (text : Array Char) (i : Nat) : Bool :=
  let before := if i == 0 then none else text[i - 1]?
  assertion.holdsBetween before text[i]?

/-- A regular expression. -/
inductive Expr where
  /-- The empty text. -/
  | empty
  /-- One character of a set. -/
  | char (set : CharSet)
  /-- A condition on the place. -/
  | assertion (assertion : Assertion)
  /-- One expression after another. -/
  | sequence (first second : Expr)
  /-- One expression or another. -/
  | alternative (left right : Expr)
  /-- An expression repeated at least, and perhaps at most, so many times. -/
  | repetition (body : Expr) (least : Nat) (most : Option Nat)
  deriving DecidableEq, Repr, Inhabited

/-- A step carried out so many times, as long as there are places left. -/
def iterate (step : List Nat → List Nat) : Nat → List Nat → List Nat
  | 0, places => places
  | _ + 1, [] => []
  | n + 1, place :: places => iterate step n (step (place :: places))

/-- The places reached by at most so many steps. -/
def reach (step : List Nat → List Nat) (n : Nat) (places : List Nat) : List Nat :=
  iterate (fun places => (places ++ step places).eraseDups) n places

namespace Expr

/-- The places where matches that start at one of the given places end. A text
    has so few places that an unbounded repetition is done after as many
    steps. -/
def ends (text : Array Char) : Expr → List Nat → List Nat
  | empty, places => places
  | char set, places =>
    places.filterMap fun i => if text[i]?.any set.contains then some (i + 1) else none
  | assertion a, places => places.filter (a.holds text)
  | sequence first second, places => ends text second (ends text first places)
  | alternative left right, places => (ends text left places ++ ends text right places).eraseDups
  | repetition body least most, places =>
    let extra :=
      match most with
      | some n => min (n - least) (text.size + 1)
      | none => text.size + 1
    -- First the repetitions that are required, then any number of those allowed.
    reach (ends text body) extra (iterate (ends text body) least places)

/-- Whether an expression matches somewhere in a text. -/
def isMatch (expr : Expr) (text : List Char) : Bool :=
  !(expr.ends text.toArray (List.range (text.length + 1))).isEmpty

/-- A measure of the size of an expression with its repetitions written out. -/
def weight : Expr → Nat
  | empty => 1
  | char set => set.weight
  | assertion _ => 1
  | sequence first second => first.weight + second.weight
  | alternative left right => left.weight + right.weight + 1
  | repetition body least most => body.weight * max 1 (most.getD least) + 1

end Expr

end PugLint.Pattern
