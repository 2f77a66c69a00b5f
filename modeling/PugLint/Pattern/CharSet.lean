import PugLint.Pattern.Property
import PugLint.Text.CaseVariant

/-!
# Sets of characters

The sets of characters that a pattern can describe, as an algebra with one
membership function.
-/

namespace PugLint.Pattern

/-- A set of characters. -/
inductive CharSet where
  /-- No character. -/
  | empty
  /-- The characters from one to another. -/
  | range (low high : Char)
  /-- The characters with a property. -/
  | property (property : Property)
  /-- All other characters. -/
  | complement (set : CharSet)
  /-- The characters of two sets. -/
  | union (left right : CharSet)
  /-- The characters that two sets share. -/
  | intersection (left right : CharSet)
  /-- The characters of one set that are not in another. -/
  | difference (left right : CharSet)
  /-- The characters in exactly one of two sets. -/
  | symmetricDifference (left right : CharSet)
  /-- The characters of a set and their case variants. -/
  | caseless (set : CharSet)
  /-- The characters of a set and the ASCII letters of the other case. -/
  | asciiCaseless (set : CharSet)
  deriving DecidableEq, Repr, Inhabited

namespace CharSet

/-- An ASCII letter in its other case. -/
def swapCase (c : Char) : Char :=
  if c.isLower then c.toUpper else c.toLower

/-- Whether a character is in a set. -/
def contains : CharSet → Char → Bool
  | empty, _ => false
  | range low high, c => decide (low ≤ c) && decide (c ≤ high)
  | property p, c => p.holds c
  | complement set, c => !set.contains c
  | union left right, c => left.contains c || right.contains c
  | intersection left right, c => left.contains c && right.contains c
  | difference left right, c => left.contains c && !right.contains c
  | symmetricDifference left right, c => left.contains c != right.contains c
  | caseless set, c => (Text.caseVariants c).any set.contains
  | asciiCaseless set, c => set.contains c || set.contains (swapCase c)

/-- A measure of how much it takes to tell the characters of a set from others. -/
def weight : CharSet → Nat
  | empty => 1
  | range _ _ => 1
  | property .word => 1500
  | property .alphabetic => 1400
  | property _ => 400
  | complement set => set.weight + 4
  | union left right => left.weight + right.weight
  | intersection left right => left.weight + right.weight
  | difference left right => left.weight + right.weight
  | symmetricDifference left right => left.weight + right.weight
  | caseless set => 2 * set.weight
  | asciiCaseless set => 2 * set.weight

/-- One character. -/
def single (c : Char) : CharSet := range c c

/-- The characters of some sets. -/
def ofList (sets : List CharSet) : CharSet :=
  sets.foldl union empty

/-- A set or, if so wished, its complement. -/
def negateIf (negated : Bool) (set : CharSet) : CharSet :=
  if negated then complement set else set

/-- The ASCII digits. -/
def digits : CharSet := range '0' '9'

/-- The ASCII letters in lower case. -/
def lowers : CharSet := range 'a' 'z'

/-- The ASCII letters in upper case. -/
def uppers : CharSet := range 'A' 'Z'

/-- The ASCII characters of words. -/
def asciiWord : CharSet := ofList [digits, lowers, uppers, single '_']

/-- The ASCII blanks. -/
def asciiBlank : CharSet := ofList [range '\t' '\r', single ' ']

/-- The sets of ASCII characters that have names. -/
def asciiNamed : List (String × CharSet) :=
  [("alnum", ofList [digits, lowers, uppers]),
   ("alpha", ofList [lowers, uppers]),
   ("ascii", range '\x00' '\x7f'),
   ("blank", ofList [single '\t', single ' ']),
   ("cntrl", ofList [range '\x00' '\x1f', single '\x7f']),
   ("digit", digits),
   ("graph", range '!' '~'),
   ("lower", lowers),
   ("print", range ' ' '~'),
   ("punct", ofList [range '!' '/', range ':' '@', range '[' '\x60', range '\x7b' '~']),
   ("space", asciiBlank),
   ("upper", uppers),
   ("word", asciiWord),
   ("xdigit", ofList [digits, range 'a' 'f', range 'A' 'F'])]

end CharSet

end PugLint.Pattern
