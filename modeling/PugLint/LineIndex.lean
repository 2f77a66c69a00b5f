import PugLint.Text.Bytes

/-!
# Lines and columns

A byte position in a text, and the line and column where it stands. Lines count
from one. `LineIndex.offset?` takes the columns of tokens, which count from
one; `LineIndex.position` gives those of reports, which count from zero.

A line ends at a line feed, which belongs to the line it ends, so that a text
that ends in a line feed has one more, empty line.
-/

namespace PugLint

/-- Where the lines of a text start. -/
structure LineIndex where
  /-- The byte positions of the starts of the lines after the first. -/
  laterStarts : List Nat
  /-- The number of bytes of the text. -/
  size : Nat
  deriving Repr, DecidableEq

namespace LineIndex

/-- The positions right after the line feeds of a text that starts at `position`. -/
def startsFrom (position : Nat) : List Char → List Nat
  | [] => []
  | c :: cs =>
    let next := position + c.utf8Size
    if c == '\n' then next :: startsFrom next cs else startsFrom next cs

/-- The index of a text. -/
def ofText (text : List Char) : LineIndex where
  laterStarts := startsFrom 0 text
  size := Text.byteLength text

/-- The starts of all lines. -/
def starts (index : LineIndex) : List Nat :=
  0 :: index.laterStarts

/-- The number of lines. -/
def lineCount (index : LineIndex) : Nat :=
  index.starts.length

/-- Where a line starts. -/
def lineStart? (index : LineIndex) : Nat → Option Nat
  | 0 => none
  | line + 1 => index.starts[line]?

/-- Where a line ends, its line feed left out. -/
def lineEnd? (index : LineIndex) : Nat → Option Nat
  | 0 => none
  | line + 1 =>
    match index.starts[line]? with
    | none => none
    | some _ =>
      match index.starts[line + 1]? with
      | some next => some (next - 1)
      | none => some index.size

/-- The byte position of a line and a column that counts from one, if the line
    exists and the column is not past its end. -/
def offset? (index : LineIndex) (line column : Nat) : Option Nat :=
  match index.lineStart? line, index.lineEnd? line, column with
  | some start, some stop, column + 1 =>
    if start + column ≤ stop then some (start + column) else none
  | _, _, _ => none

/-- The line of a byte position and its column, which counts from zero; past
    the end, those of the end. -/
def position (index : LineIndex) (offset : Nat) : Nat × Nat :=
  let offset := min offset index.size
  let upTo := index.laterStarts.takeWhile (· ≤ offset)
  (upTo.length + 1, offset - upTo.getLast?.getD 0)

end LineIndex

end PugLint
