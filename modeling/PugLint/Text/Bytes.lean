/-!
# Bytes of a text

A text is the list of its characters, and every position in this library
counts the bytes of its UTF-8 form. This module measures texts in bytes and
cuts them at byte positions. A position inside a character is no place to cut:
the functions below give `none` there.

* `byteLength_append`: lengths add up;
* `splitAt?_append`: cutting where two texts were joined gives them back.
-/

namespace PugLint.Text

/-- The number of bytes of the UTF-8 form of a text. -/
def byteLength : List Char → Nat
  | [] => 0
  | c :: cs => c.utf8Size + byteLength cs

/-- The text before and after the byte position `n`, if that is a boundary
    between two characters or an end of the text. -/
def splitAt? : List Char → Nat → Option (List Char × List Char)
  | cs, 0 => some ([], cs)
  | [], _ + 1 => none
  | c :: cs, n + 1 =>
    if c.utf8Size ≤ n + 1 then
      (splitAt? cs (n + 1 - c.utf8Size)).map fun (before, after) => (c :: before, after)
    else none

/-- Whether the byte position `n` lies between two characters or at an end. -/
def isBoundary (cs : List Char) (n : Nat) : Bool :=
  (splitAt? cs n).isSome

/-- The text from the byte position `start` up to the byte position `stop`. -/
def slice? (cs : List Char) (start stop : Nat) : Option (List Char) :=
  if start ≤ stop then
    match splitAt? cs start with
    | some (_, after) => (splitAt? after (stop - start)).map Prod.fst
    | none => none
  else none

/-- The text from `start` up to `stop`, empty if one of them is no boundary. -/
def slice (cs : List Char) (start stop : Nat) : List Char :=
  (slice? cs start stop).getD []

@[simp] theorem byteLength_nil : byteLength [] = 0 := rfl

@[simp] theorem byteLength_cons (c : Char) (cs : List Char) :
    byteLength (c :: cs) = c.utf8Size + byteLength cs := rfl

theorem byteLength_append (cs ds : List Char) :
    byteLength (cs ++ ds) = byteLength cs + byteLength ds := by
  induction cs with
  | nil => simp
  | cons c cs ih => simp [ih, Nat.add_assoc]

@[simp] theorem splitAt?_zero (cs : List Char) : splitAt? cs 0 = some ([], cs) := by
  cases cs <;> rfl

/-- A text joined from two is cut back into them at the length of the first. -/
theorem splitAt?_append (cs ds : List Char) :
    splitAt? (cs ++ ds) (byteLength cs) = some (cs, ds) := by
  induction cs with
  | nil => simp
  | cons c cs ih =>
    have pos : 0 < c.utf8Size := c.utf8Size_pos
    obtain ⟨n, hn⟩ : ∃ n, c.utf8Size + byteLength cs = n + 1 :=
      ⟨c.utf8Size + byteLength cs - 1, by omega⟩
    have rest : n + 1 - c.utf8Size = byteLength cs := by omega
    simp [hn, splitAt?, rest, ih, show c.utf8Size ≤ n + 1 by omega]

end PugLint.Text
