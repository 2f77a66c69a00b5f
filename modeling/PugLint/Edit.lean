import PugLint.Text.Bytes

/-!
# Edits and fixes

An edit replaces a range of a document by a text; a fix is a titled list of
edits. Edits are carried out from the back to the front, so that an edit leaves
the positions of those still to come in place. An edit whose range does not lie
in the text, or cuts a character, is left out.
-/

namespace PugLint

/-- The replacement of the bytes from `start` up to `stop`. -/
structure Edit where
  /-- Where the replaced range starts. -/
  start : Nat
  /-- Where the replaced range ends. -/
  stop : Nat
  /-- What stands there afterwards. -/
  newText : String
  deriving DecidableEq, Repr, Inhabited

/-- A way to mend a reported problem. -/
structure Fix where
  /-- What the fix does, for the reader of a report. -/
  title : String
  /-- The edits to carry out. -/
  edits : List Edit
  deriving DecidableEq, Repr, Inhabited

/-- The text after an edit, unchanged if the edit does not fit it. -/
def Edit.apply (edit : Edit) (text : List Char) : List Char :=
  if edit.start ≤ edit.stop then
    match Text.splitAt? text edit.start, Text.splitAt? text edit.stop with
    | some (before, _), some (_, after) => before ++ edit.newText.toList ++ after
    | _, _ => text
  else text

/-- The edits from the back of the document to its front; edits with the same
    start keep their order. -/
def Fix.backToFront (fix : Fix) : List Edit :=
  fix.edits.mergeSort fun a b => b.start ≤ a.start

/-- The document after a fix. -/
def Fix.apply (fix : Fix) (source : String) : String :=
  String.ofList (fix.backToFront.foldl (fun text edit => edit.apply text) source.toList)

end PugLint
