import PugLint.LineIndex
import PugLint.Token

/-!
# Places in the document

The places of tokens are relative to the template. Here each token gets its
range of bytes in the whole document and its lines there, so that the text of
the document in that range is the token as written.

Tokens come in the order of the text. One that would start before the token in
front of it is moved up to it, and one whose place does not exist in the
template gets an empty range there.
-/

namespace PugLint

/-- A token with its range in the document. -/
structure PlacedToken where
  /-- What the token is. -/
  kind : TokenKind
  /-- The first byte of the token. -/
  start : Nat
  /-- The byte behind the token. -/
  stop : Nat
  /-- The line of the document where the token starts. -/
  line : Nat
  /-- The line of the document where the token ends. -/
  stopLine : Nat
  deriving DecidableEq, Repr, Inhabited

namespace PlacedToken

/-- The number of bytes of a token. -/
def size (token : PlacedToken) : Nat :=
  token.stop - token.start

/-- Whether the range of a token is empty. -/
def isEmpty (token : PlacedToken) : Bool :=
  token.start == token.stop

/-- The name of an attribute and its value as written. -/
def attribute? (token : PlacedToken) : Option (String × Option String) :=
  token.kind.attribute?

/-- The range of the name of an attribute. -/
def nameRange? (token : PlacedToken) : Option (Nat × Nat) :=
  token.attribute?.map fun (name, _) =>
    (token.start, min (token.start + name.utf8ByteSize) token.stop)

/-- The range of the value of an attribute, which ends where the attribute
    ends. -/
def valueRange? (token : PlacedToken) : Option (Nat × Nat) :=
  match token.attribute? with
  | some (_, some value) => some (max (token.stop - value.utf8ByteSize) token.start, token.stop)
  | _ => none

/-- The text of a token in the document, empty if its range cuts a character. -/
def text (token : PlacedToken) (document : List Char) : List Char :=
  Text.slice document token.start token.stop

end PlacedToken

namespace Placement

/-- The range of a span in the template that `index` describes. -/
def resolve? (index : LineIndex) (span : Span) : Option (Nat × Nat) :=
  match index.offset? span.start.line span.start.column,
      index.offset? span.stop.line span.stop.column with
  | some start, some stop => if start ≤ stop then some (start, stop) else none
  | _, _ => none

/-- The place of one token behind another that starts at `cursor`, in a template
    that starts at `offset` on `line`. -/
def placeAfter (index : LineIndex) (offset line cursor : Nat) (token : Token) : PlacedToken :=
  let (start, stop) :=
    match resolve? index token.span with
    | some (start, stop) => (offset + start, offset + stop)
    | none => (cursor, cursor)
  { kind := token.kind
    start := max start cursor
    stop := if start < cursor then max stop cursor else stop
    line := line + (token.span.start.line - 1)
    stopLine := line + (token.span.stop.line - 1) }

/-- The places of tokens behind one that starts at `cursor`. -/
def placeFrom (index : LineIndex) (offset line cursor : Nat) : List Token → List PlacedToken
  | [] => []
  | token :: tokens =>
    let placed := placeAfter index offset line cursor token
    placed :: placeFrom index offset line placed.start tokens

end Placement

/-- The places in the document of the tokens of a template, which starts at the
    byte `offset` on `line`. -/
def placeTokens (tokens : List Token) (template : List Char) (offset line : Nat) :
    List PlacedToken :=
  Placement.placeFrom (LineIndex.ofText template) offset line offset tokens

end PugLint
