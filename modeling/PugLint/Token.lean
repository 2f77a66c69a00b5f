/-!
# Tokens

The pieces of a template with their places in it. A place is a line and a
column, both counted from one; columns count bytes. The end of a span is the
place right behind it.
-/

namespace PugLint

/-- A place in a template. -/
structure Position where
  /-- The line, from one. -/
  line : Nat
  /-- The column in bytes, from one. -/
  column : Nat
  deriving DecidableEq, Repr, Inhabited

namespace Position

/-- The first place of a template. -/
def first : Position := ⟨1, 1⟩

/-- The place behind a character at this place. -/
def next (p : Position) (c : Char) : Position :=
  if c == '\n' then ⟨p.line + 1, 1⟩ else ⟨p.line, p.column + c.utf8Size⟩

/-- The place behind a text that starts at this place. -/
def after (p : Position) (text : List Char) : Position :=
  text.foldl next p

@[simp] theorem after_nil (p : Position) : p.after [] = p := rfl

@[simp] theorem after_cons (p : Position) (c : Char) (text : List Char) :
    p.after (c :: text) = (p.next c).after text := rfl

theorem after_append (p : Position) (a b : List Char) :
    p.after (a ++ b) = (p.after a).after b := by
  simp [after]

end Position

/-- From one place up to another. -/
structure Span where
  /-- Where the span starts. -/
  start : Position
  /-- The place behind the span. -/
  stop : Position
  deriving DecidableEq, Repr, Inhabited

/-- Whether a span stays on one line. -/
def Span.isSingleLine (span : Span) : Bool :=
  span.start.line == span.stop.line

/-- The words that make a line a control line. -/
inductive Keyword where
  | ifWord | elseIf | elseWord | unless | each | forWord | whileWord | case | whenWord
  | default | include | extends | block | append | prepend | mixin | yield
  deriving DecidableEq, Repr, Inhabited

namespace Keyword

/-- The written form of a keyword; the two words of an else-if are joined by a
    dash. -/
def spelling : Keyword → String
  | .ifWord => "if"
  | .elseIf => "else-if"
  | .elseWord => "else"
  | .unless => "unless"
  | .each => "each"
  | .forWord => "for"
  | .whileWord => "while"
  | .case => "case"
  | .whenWord => "when"
  | .default => "default"
  | .include => "include"
  | .extends => "extends"
  | .block => "block"
  | .append => "append"
  | .prepend => "prepend"
  | .mixin => "mixin"
  | .yield => "yield"

/-- The keywords of one word. -/
def words : List Keyword :=
  [.ifWord, .elseWord, .unless, .each, .forWord, .whileWord, .case, .whenWord, .default,
    .include, .extends, .block, .append, .prepend, .mixin, .yield]

/-- The keyword that a single word is. -/
def ofWord? (word : String) : Option Keyword :=
  words.find? (·.spelling == word)

end Keyword

/-- What a token is. -/
inductive TokenKind where
  /-- The name of an element. -/
  | tag (name : String)
  /-- A class, written with a dot in front. -/
  | classLiteral (name : String)
  /-- An id, written with a hash in front. -/
  | idLiteral (name : String)
  /-- The parenthesis that opens a list of attributes. -/
  | startAttributes
  /-- An attribute, its value as written. -/
  | attribute (name : String) (value : Option String) (escaped : Bool)
  /-- The parenthesis that closes a list of attributes. -/
  | endAttributes
  /-- A spread of attributes with the expression in its parentheses. -/
  | andAttributes (value : String)
  /-- Plain text. -/
  | text (value : String)
  /-- A line of markup, which starts with a less-than sign. -/
  | html (value : String)
  /-- Code to the end of the line; `buffered` when its value is shown. -/
  | code (value : String) (buffered : Bool)
  /-- A comment; `buffered` when it is shown. -/
  | comment (value : String) (buffered : Bool)
  /-- The document type. -/
  | doctype (value : String)
  /-- A control line with what follows its keyword. -/
  | control (keyword : Keyword) (expression : String)
  /-- The use of a mixin. -/
  | call (name : String)
  /-- The dot that opens a block of raw text. -/
  | dot
  /-- The colon between an element and one nested in it on the same line. -/
  | colon
  /-- The slash that closes an element at once. -/
  | slash
  /-- The start of a block of raw text. -/
  | startRawText
  /-- The end of a block of raw text. -/
  | endRawText
  /-- The start of a line as deep as the one before. -/
  | newline
  /-- The start of a deeper line. -/
  | indent (width : Nat)
  /-- The end of one level of depth. -/
  | outdent
  /-- The end of the template. -/
  | eos
  deriving DecidableEq, Repr, Inhabited

/-- The name of a kind of token. -/
def TokenKind.typeName : TokenKind → String
  | .tag _ => "tag"
  | .classLiteral _ => "class"
  | .idLiteral _ => "id"
  | .startAttributes => "start-attributes"
  | .attribute _ _ _ => "attribute"
  | .endAttributes => "end-attributes"
  | .andAttributes _ => "&attributes"
  | .text _ => "text"
  | .html _ => "text-html"
  | .code _ _ => "code"
  | .comment _ _ => "comment"
  | .doctype _ => "doctype"
  | .control _ _ => "control"
  | .call _ => "call"
  | .dot => "dot"
  | .colon => ":"
  | .slash => "slash"
  | .startRawText => "start-pipeless-text"
  | .endRawText => "end-pipeless-text"
  | .newline => "newline"
  | .indent _ => "indent"
  | .outdent => "outdent"
  | .eos => "eos"

/-- A token and its place. -/
structure Token where
  /-- What the token is. -/
  kind : TokenKind
  /-- Where it stands. -/
  span : Span
  deriving DecidableEq, Repr, Inhabited

/-- The name of a tag. -/
def TokenKind.tagName? : TokenKind → Option String
  | .tag name => some name
  | _ => none

/-- The text of plain text and of markup lines. -/
def TokenKind.textValue? : TokenKind → Option String
  | .text value => some value
  | .html value => some value
  | _ => none

/-- The name of an attribute and its value as written. -/
def TokenKind.attribute? : TokenKind → Option (String × Option String)
  | .attribute name value _ => some (name, value)
  | _ => none

end PugLint
