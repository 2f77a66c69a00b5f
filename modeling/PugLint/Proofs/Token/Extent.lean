import PugLint.Token.Lexer

/-!
# Tokens as written

What a token says is not all that is written: a class has a dot in front, a
quoted name has its quotes around it, and code has blanks behind its marker.
`TokenKind.Written` says which texts a token can stand for, and `Laid` that
tokens stand one behind the other on a text, each over such a piece of it.

Reading goes from cursor to cursor. `Reads` says of two cursors that the text
between them carries the given tokens.
-/

namespace PugLint

open Lexer

/-- How the name of an attribute is written: as it is, or in quotes. -/
def NameWritten (name written : List Char) : Prop :=
  written = name ∨ written = '"' :: (name ++ ['"']) ∨ written = '\'' :: (name ++ ['\''])

/-- The sign between a name and a value. -/
def assignment (escaped : Bool) : List Char :=
  if escaped then ['='] else ['!', '=']

/-- The markers of code, and whether its value is shown. -/
inductive CodeMarker : List Char → Bool → Prop
  | plain : CodeMarker ['-'] false
  | escaped : CodeMarker ['='] true
  | raw : CodeMarker ['!', '='] true

/-- The markers of comments, and whether they are shown. -/
inductive CommentMarker : List Char → Bool → Prop
  | shown : CommentMarker ['/', '/'] true
  | hidden : CommentMarker ['/', '/', '-'] false

/-- What may stand for a token in the text of a template. -/
def TokenKind.Written : TokenKind → List Char → Prop
  | .tag name, written => written = name.toList
  | .classLiteral name, written => written = '.' :: name.toList
  | .idLiteral name, written => written = '#' :: name.toList
  | .call name, written => written = '+' :: name.toList
  | .startAttributes, written => written = ['(']
  | .endAttributes, written => written = [')']
  | .attribute name none escaped, written => NameWritten name.toList written ∧ escaped = true
  | .attribute name (some value) escaped, written =>
    ∃ shown before behind, NameWritten name.toList shown ∧
      (∀ c ∈ before, isInlineBlank c = true) ∧ (∀ c ∈ behind, isInlineBlank c = true) ∧
      written = shown ++ before ++ assignment escaped ++ behind ++ value.toList
  | .andAttributes value, written => written = "&attributes(".toList ++ value.toList ++ [')']
  | .text value, written => written = value.toList
  | .html value, written => written = value.toList
  | .code value buffered, written =>
    ∃ marker blanks, CodeMarker marker buffered ∧ (∀ c ∈ blanks, Text.isBlank c = true) ∧
      written = marker ++ blanks ++ value.toList
  | .comment value buffered, written =>
    ∃ marker, CommentMarker marker buffered ∧ written = marker ++ value.toList
  | .doctype value, written =>
    ∃ behind, written = "doctype".toList ++ behind ∧ value.toList = Text.trim behind
  -- The words of an else-if may have any blanks between them.
  | .control .elseIf expression, written =>
    ∃ behind condition, written = "else".toList ++ behind ∧
      Text.trim behind = "if".toList ++ condition ∧ expression.toList = Text.trim condition
  | .control keyword expression, written =>
    ∃ behind, written = keyword.spelling.toList ++ behind ∧
      expression.toList = Text.trim behind
  | .dot, written => written = ['.']
  | .colon, written => written = [':']
  | .slash, written => written = ['/']
  | .startRawText, written | .endRawText, written | .eos, written => written = []
  | .newline, written | .outdent, written => ∀ c ∈ written, isInlineBlank c = true
  | .indent width, written => (∀ c ∈ written, isInlineBlank c = true) ∧ written.length = width

/-- The tokens stand in their order on a text that starts at a place, each over
    what may stand for it. A token may start where the one in front of it does. -/
inductive Laid : Position → List Char → List Token → Prop
  | nil {place : Position} {text : List Char} : Laid place text []
  | cons {place : Position} {skipped written rest : List Char} {kind : TokenKind}
      {tokens : List Token} : kind.Written written →
      Laid (place.after skipped) (written ++ rest) tokens →
      Laid place (skipped ++ (written ++ rest))
        (⟨kind, place.after skipped, place.after (skipped ++ written)⟩ :: tokens)

namespace Laid

variable {place : Position} {a b : List Char} {tokens others : List Token}

/-- Tokens stand on a text that goes on behind them. -/
theorem extend (h : Laid place a tokens) (b : List Char) : Laid place (a ++ b) tokens := by
  induction h with
  | nil => exact .nil
  | cons hw _ ih =>
    rw [List.append_assoc] at ih
    rw [List.append_assoc, List.append_assoc]
    exact .cons hw ih

/-- Tokens stand on a text that starts in front of them. -/
theorem skip (a : List Char) (h : Laid (place.after a) b tokens) : Laid place (a ++ b) tokens := by
  cases h with
  | nil => exact .nil
  | @cons _ skipped written _ _ _ hw hs =>
    rw [← Position.after_append] at hs
    rw [← Position.after_append, ← Position.after_append, ← List.append_assoc a,
      ← List.append_assoc a]
    exact .cons hw hs

/-- The tokens of two texts, one behind the other. -/
theorem append (ha : Laid place a tokens) (hb : Laid (place.after a) b others) :
    Laid place (a ++ b) (tokens ++ others) := by
  induction ha with
  | nil => exact hb.skip _
  | cons hw _ ih =>
    rw [Position.after_append] at hb
    have hs := ih hb
    rw [List.append_assoc] at hs
    rw [List.append_assoc, List.append_assoc]
    exact .cons hw hs

/-- Any number of tokens over the same text. -/
theorem ofWritten {kinds : List TokenKind} (h : ∀ kind ∈ kinds, kind.Written a) :
    Laid place a (kinds.map fun kind => ⟨kind, place, place.after a⟩) := by
  induction kinds with
  | nil => exact .nil
  | cons kind kinds ih =>
    obtain ⟨hw, hs⟩ := List.forall_mem_cons.1 h
    have hlaid : Laid place ([] ++ (a ++ []))
        (⟨kind, place.after [], place.after ([] ++ a)⟩ :: kinds.map _) :=
      .cons hw (by rw [List.append_nil, Position.after_nil]; exact ih hs)
    rwa [List.append_nil, List.nil_append, Position.after_nil] at hlaid

/-- A token over a whole text. -/
theorem single {kind : TokenKind} (hw : kind.Written a) :
    Laid place a [⟨kind, place, place.after a⟩] :=
  ofWritten (List.forall_mem_singleton.2 hw)

end Laid

/-- The text from one cursor to another carries the tokens. -/
def Reads (start : Cursor) (tokens : List Token) (stop : Cursor) : Prop :=
  ∃ taken, start.rest = taken ++ stop.rest ∧ stop.place = start.place.after taken ∧
    Laid start.place taken tokens

namespace Reads

variable {start stop : Cursor} {tokens : List Token}

theorem refl (start : Cursor) : Reads start [] start :=
  ⟨[], rfl, rfl, .nil⟩

theorem length_le (h : Reads start tokens stop) : stop.rest.length ≤ start.rest.length := by
  obtain ⟨taken, hrest, -, -⟩ := h
  rw [hrest, List.length_append]
  exact Nat.le_add_left _ _

end Reads

end PugLint
