import PugLint.Text.Blank
import PugLint.Text.Search

/-!
# Messages

The messages of rules have slots, written as a key between double braces, which
are filled when a problem is reported. The text is gone through once: what is
put into a slot is not looked at again, and a slot without a value stays as it
is written.
-/

namespace PugLint.Message

/-- The braces that open a slot. -/
def opening : List Char := "\x7b\x7b".toList

/-- The braces that close a slot. -/
def closing : List Char := "\x7d\x7d".toList

/-- The slot for a key. -/
def slot (key : String) : String :=
  String.ofList (opening ++ key.toList ++ closing)

/-- The value for what is written in a slot: the first one for the key without
    blanks around it, or the slot itself. -/
def fill (data : List (String × String)) (written : List Char) : List Char :=
  match data.lookup (String.ofList (Text.trim written)) with
  | some value => value.toList
  | none => opening ++ written ++ closing

/-- Fills the slots of a text, at most `fuel` of them. -/
def interpolateChars (data : List (String × String)) : Nat → List Char → List Char
  | 0, text => text
  | fuel + 1, text =>
    match Text.splitBefore? opening text with
    | none => text
    | some (before, slot) =>
      match Text.splitBefore? closing (slot.drop 2) with
      | none => text
      | some (written, rest) =>
        before ++ fill data written ++ interpolateChars data fuel (rest.drop 2)

/-- A message with its slots filled. -/
def interpolate (template : String) (data : List (String × String)) : String :=
  String.ofList (interpolateChars data template.length template.toList)

end PugLint.Message
