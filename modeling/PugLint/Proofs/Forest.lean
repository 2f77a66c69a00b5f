import PugLint.Token.Lexer

/-!
# Forests and how they are written

A forest of elements as data, apart from tokens and numbers, and the ways in which
a template can write it: one element on a line, the elements nested in it on deeper
lines that follow. Much is free: the blanks of each level, blank lines, the kind of
line ends, and what stands between attributes.

* `Forest`: elements with their heads and the elements nested in them;
* `Head.Written`, `Forest.Written`: the texts of a head and of the lines of a
  forest;
* `Forest.WrittenTemplate`: the templates that write a forest;
* `Forest.kinds`: the kinds of the tokens of such a template, whatever its blanks.
-/

namespace PugLint

/-! ### Heads -/

/-- A class or an id in the head of an element. -/
inductive Literal where
  /-- A class. -/
  | ofClass (name : String)
  /-- An id. -/
  | ofId (name : String)
  deriving DecidableEq, Repr

/-- The head of an element: what stands on its line. -/
structure Head where
  /-- The tag name. -/
  name : String
  /-- The classes and ids. -/
  literals : List Literal
  /-- The attributes: their names, and their values as written. -/
  attributes : List (String × Option String)
  /-- The text behind the head. -/
  text : Option String
  deriving DecidableEq, Repr

/-- The characters that a tag name starts and ends with. -/
def isNameEdge (c : Char) : Bool :=
  c.isAlphanum || c == '_'

/-- A tag name starts and ends with a letter, a digit or an underscore, and is not
    the word of a document type or of a control line. -/
structure IsTagName (name : List Char) : Prop where
  /-- The first character. -/
  starts : ∃ c ∈ name.head?, isNameEdge c = true
  /-- The last character. -/
  ends : ∃ c ∈ name.getLast?, isNameEdge c = true
  /-- The characters between them. -/
  chars : ∀ c ∈ name, Lexer.isTagChar c = true
  /-- No document type. -/
  not_doctype : String.ofList name ≠ "doctype"
  /-- No control line. -/
  not_keyword : Keyword.ofWord? (String.ofList name) = none

namespace Literal

/-- The name of a class or an id. -/
def name : Literal → String
  | ofClass name => name
  | ofId name => name

/-- A class with a dot and an id with a hash in front. -/
def written : Literal → List Char
  | ofClass name => '.' :: name.toList
  | ofId name => '#' :: name.toList

/-- A class or an id has a name of letters, digits, underscores and dashes. -/
def WellFormed (literal : Literal) : Prop :=
  literal.name.toList ≠ [] ∧ ∀ c ∈ literal.name.toList, Lexer.isLiteralChar c = true

/-- The kind of its token. -/
def kind : Literal → TokenKind
  | ofClass name => .classLiteral name
  | ofId name => .idLiteral name

end Literal

/-- Whether the square brackets of a text are balanced, where so many of them are
    open in front of it. -/
def isBalanced (depth : Nat) : List Char → Bool
  | [] => depth == 0
  | '[' :: cs => isBalanced (depth + 1) cs
  | ']' :: cs => 0 < depth && isBalanced (depth - 1) cs
  | _ :: cs => isBalanced depth cs

/-- The name of an attribute that is written without quotes. -/
structure IsAttributeName (name : List Char) : Prop where
  /-- The name does not start with a quote. -/
  starts : ∃ c ∈ name.head?, c ≠ '"' ∧ c ≠ '\''
  /-- The name does not end with an exclamation mark. -/
  ends : name.getLast? ≠ some '!'
  /-- Brackets are balanced. -/
  balanced : isBalanced 0 name = true
  /-- Nothing in the name ends it. -/
  chars : ∀ c ∈ name, Text.isAsciiBlank c = false ∧ c ≠ '=' ∧ c ≠ ',' ∧ c ≠ ')'

/-- A value in quotes, with neither its quote nor a backslash in between. -/
def IsQuoted (value : List Char) : Prop :=
  ∃ quote body, Lexer.isQuote quote = true ∧ value = quote :: body ++ [quote] ∧
    quote ∉ body ∧ '\\' ∉ body

/-- Text on the line of an element: not blank, and without line breaks. -/
structure IsInlineText (text : List Char) : Prop where
  /-- The text is not blank. -/
  not_blank : ∃ c ∈ text, Text.isBlank c = false
  /-- The text stays on the line. -/
  chars : ∀ c ∈ text, c ≠ '\n' ∧ c ≠ '\r'

/-- The parts of a head can be told apart when they are written one behind the
    other. -/
structure Head.WellFormed (head : Head) : Prop where
  /-- The tag name. -/
  name : IsTagName head.name.toList
  /-- The classes and ids. -/
  literals : ∀ literal ∈ head.literals, literal.WellFormed
  /-- The names of the attributes. -/
  names : ∀ entry ∈ head.attributes, IsAttributeName entry.1.toList
  /-- The values of the attributes. -/
  values : ∀ entry ∈ head.attributes, ∀ value ∈ entry.2, IsQuoted value.toList
  /-- The text. -/
  text : ∀ text ∈ head.text, IsInlineText text.toList

/-! ### Written heads -/

/-- What parts attributes: blanks, commas and line breaks. -/
def isGap (c : Char) : Bool :=
  c == ' ' || c == '\t' || c == ',' || c == '\n' || c == '\r'

/-- An attribute, alone or with its value. -/
def writtenAttribute (entry : String × Option String) : List Char :=
  entry.1.toList ++ (entry.2.map fun value => '=' :: value.toList).getD []

/-- Attributes parted by gaps, and perhaps a gap behind the last one. -/
inductive WrittenAttributes : List (String × Option String) → List Char → Prop where
  /-- The last attribute. -/
  | last (entry : String × Option String) {gap : List Char}
      (hgap : ∀ c ∈ gap, isGap c = true) :
      WrittenAttributes [entry] (writtenAttribute entry ++ gap)
  /-- An attribute in front of others. -/
  | cons (entry : String × Option String) {gap : List Char}
      (hgap : ∀ c ∈ gap, isGap c = true) (hne : gap ≠ [])
      {entries : List (String × Option String)} {text : List Char}
      (others : WrittenAttributes entries text) :
      WrittenAttributes (entry :: entries) (writtenAttribute entry ++ gap ++ text)

/-- A list of attributes in parentheses; without attributes there is none. -/
inductive WrittenList : List (String × Option String) → List Char → Prop where
  /-- No list. -/
  | nil : WrittenList [] []
  /-- A list, with perhaps a gap in front of the first attribute. -/
  | parens {gap : List Char} (hgap : ∀ c ∈ gap, isGap c = true)
      {entries : List (String × Option String)} {text : List Char}
      (inner : WrittenAttributes entries text) :
      WrittenList entries ('(' :: gap ++ text ++ [')'])

/-- The text of a head, one blank in front of it. -/
def writtenText (text : Option String) : List Char :=
  (text.map fun text => ' ' :: text.toList).getD []

/-- A text writes a head: its name, classes and ids, the list of attributes and the
    text, one behind the other. -/
inductive Head.Written (head : Head) : List Char → Prop where
  | mk (wellFormed : head.WellFormed) {list : List Char}
      (hlist : WrittenList head.attributes list) :
      Head.Written head (head.name.toList ++ (head.literals.flatMap Literal.written ++
        (list ++ writtenText head.text)))

/-- The kinds of the tokens of a list of attributes. -/
def listKinds : List (String × Option String) → List TokenKind
  | [] => []
  | entries =>
    .startAttributes :: entries.map (fun (name, value) => .attribute name value true) ++
      [.endAttributes]

/-- The kinds of the tokens of a head. -/
def Head.kinds (head : Head) : List TokenKind :=
  .tag head.name :: (head.literals.map Literal.kind ++
    (listKinds head.attributes ++ (head.text.map TokenKind.text).toList))

/-! ### Forests -/

/-- A forest is empty, or it has a first element, with a head and the elements
    nested in it, and others behind that. -/
inductive Forest where
  /-- No elements. -/
  | nil
  /-- An element in front of others. -/
  | cons (head : Head) (children rest : Forest)
  deriving DecidableEq, Repr

namespace Forest

/-- The number of elements. -/
def size : Forest → Nat
  | nil => 0
  | cons _ children rest => 1 + children.size + rest.size

/-- The heads in the order of their lines, with their depths; the outermost ones
    have depth `depth`. -/
def lines (depth : Nat) : Forest → List (Nat × Head)
  | nil => []
  | cons head children rest => (depth, head) :: (children.lines (depth + 1) ++ rest.lines depth)

end Forest

/-- The end of a line, blank lines, and the start of the next line. -/
inductive IsBreak : List Char → Prop where
  /-- A line feed. -/
  | lf : IsBreak ['\n']
  /-- A carriage return and a line feed. -/
  | crlf : IsBreak ['\r', '\n']
  /-- A line break, a blank line and its end. -/
  | blankLine {first blanks second : List Char} (hfirst : IsBreak first)
      (hblanks : ∀ c ∈ blanks, Lexer.isInlineBlank c = true) (hsecond : IsBreak second) :
      IsBreak (first ++ blanks ++ second)

/-- The indentation of the elements nested in one with a given indentation: more
    blanks. -/
def Deeper (indentation inner : List Char) : Prop :=
  ∃ blanks, blanks ≠ [] ∧ (∀ c ∈ blanks, Lexer.isInlineBlank c = true) ∧
    inner = indentation ++ blanks

/-- A text writes the lines of a forest whose outermost elements have a given
    indentation: each line behind a line break. -/
inductive Forest.Written : List Char → Forest → List Char → Prop where
  /-- No lines. -/
  | nil (indentation : List Char) : Forest.Written indentation .nil []
  /-- The line of an element, the lines of those nested in it, and the lines behind
      them. -/
  | cons {indentation inner before line below behind : List Char} {head : Head}
      {children rest : Forest} (hbefore : IsBreak before) (hline : head.Written line)
      (hinner : Deeper indentation inner) (hbelow : Forest.Written inner children below)
      (hbehind : Forest.Written indentation rest behind) :
      Forest.Written indentation (.cons head children rest)
        (before ++ indentation ++ line ++ below ++ behind)

/-- What may follow the last line: nothing, or its end and blank lines. -/
def IsTrailing (text : List Char) : Prop :=
  text = [] ∨ ∃ before blanks, IsBreak before ∧
    (∀ c ∈ blanks, Lexer.isInlineBlank c = true) ∧ text = before ++ blanks

/-- A text is a template that writes a forest: its roots stand at the start of their
    lines. The first of them stands at the start of the text, or behind blank
    lines. -/
inductive Forest.WrittenTemplate : Forest → List Char → Prop where
  /-- A template without blank lines in front. -/
  | direct {line inner below behind trailing : List Char} {head : Head} {children rest : Forest}
      (hline : head.Written line) (hinner : Deeper [] inner)
      (hbelow : Forest.Written inner children below) (hbehind : Forest.Written [] rest behind)
      (htrailing : IsTrailing trailing) :
      Forest.WrittenTemplate (.cons head children rest) (line ++ below ++ behind ++ trailing)
  /-- A template behind blank lines. -/
  | behindBlanks {blanks text trailing : List Char} {head : Head} {children rest : Forest}
      (hblanks : ∀ c ∈ blanks, Lexer.isInlineBlank c = true)
      (htext : Forest.Written [] (.cons head children rest) text)
      (htrailing : IsTrailing trailing) :
      Forest.WrittenTemplate (.cons head children rest) (blanks ++ text ++ trailing)

/-! ### Kinds of tokens -/

/-- The kind of a token without the width of an indentation. -/
def TokenKind.plain : TokenKind → TokenKind
  | indent _ => indent 0
  | kind => kind

/-- The kinds of the tokens for the indentation of a line, between lines of given
    depths. -/
def depthKinds (before depth : Nat) : List TokenKind :=
  if before < depth then [.indent 0]
  else if depth < before then List.replicate (before - depth) .outdent
  else [.newline]

/-- The kinds of the tokens of lines that follow a line of a given depth. -/
def lineKinds (before : Nat) : List (Nat × Head) → List TokenKind
  | [] => List.replicate before .outdent ++ [.eos]
  | (depth, head) :: lines => depthKinds before depth ++ head.kinds ++ lineKinds depth lines

/-- The kinds of the tokens of a template that writes a forest. The first line has
    no tokens for its indentation. -/
def Forest.kinds : Forest → List TokenKind
  | nil => [.eos]
  | cons head children rest => head.kinds ++ lineKinds 0 (children.lines 1 ++ rest.lines 0)

end PugLint
