import PugLint.Text.Blank
import PugLint.Text.Bytes
import PugLint.Token

/-!
# Reading templates

Turns the text of a template into tokens. The text is read line by line: the
first character behind the indentation decides what a line is, a change of the
indentation becomes an `indent` or `outdent`, and only lists of attributes and
the strings in them go on over the end of a line.

Every scanner below splits what is left of the text into the part it takes and
the rest, so that the place of a token follows from the text in front of it.
The loops over lines, over the parts of an element and over attributes each
take at least one character a turn; they are given as many turns as there are
characters.

* `tokenize`: the tokens of a template, or the first fault in it.
-/

namespace PugLint

/-- The faults that stop the reading of a template. -/
inductive LexError where
  /-- A text that fits no rule, cut to its first characters. -/
  | unexpectedText (snippet : String) (place : Position)
  /-- A line less deep than the one before whose depth no open level has. -/
  | inconsistentIndentation (line expected actual : Nat)
  /-- A list of attributes, or a group in parentheses, without its end. -/
  | unclosedAttributeBlock (place : Position)
  /-- A string without its closing quote. -/
  | unterminatedString (place : Position)
  deriving DecidableEq, Repr

/-- The wording of a fault. -/
def LexError.message : LexError → String
  | unexpectedText snippet place =>
    "unexpected text \"" ++ snippet ++ "\" at " ++ toString place.line ++ ":" ++
      toString place.column
  | inconsistentIndentation line expected actual =>
    "inconsistent indentation at " ++ toString line ++ ": expected " ++ toString expected ++
      " columns, got " ++ toString actual
  | unclosedAttributeBlock place =>
    "attribute block opened at " ++ toString place.line ++ ":" ++ toString place.column ++
      " is never closed"
  | unterminatedString place =>
    "unterminated string literal starting at " ++ toString place.line ++ ":" ++
      toString place.column

namespace Lexer

/-- A place in the template and the text from there on. -/
structure Cursor where
  /-- The place reached. -/
  place : Position
  /-- What is still to be read. -/
  rest : List Char
  deriving DecidableEq, Repr, Inhabited

/-- The cursor behind a text that it stands in front of. -/
def Cursor.advance (cursor : Cursor) (taken rest : List Char) : Cursor :=
  ⟨cursor.place.after taken, rest⟩

/-- The token over a text that starts at a cursor. -/
def Cursor.token (cursor : Cursor) (kind : TokenKind) (taken : List Char) : Token :=
  ⟨kind, cursor.place, cursor.place.after taken⟩

/-! ### Characters and lines -/

/-- The characters of tag names. -/
def isTagChar (c : Char) : Bool :=
  c.isAlphanum || c == '_' || c == '-' || c == ':'

/-- The characters of classes, ids and mixin names. -/
def isLiteralChar (c : Char) : Bool :=
  c.isAlphanum || c == '_' || c == '-'

/-- The blanks of an indentation. -/
def isInlineBlank (c : Char) : Bool :=
  c == ' ' || c == '\t'

/-- Whether a text is at the end of a line: at its own end, or in front of a
    line feed, with or without a carriage return. -/
def isLineEnd : List Char → Bool
  | [] => true
  | '\n' :: _ => true
  | '\r' :: '\n' :: _ => true
  | _ => false

/-- The text up to the end of the line, and what follows from there. -/
def splitLine : List Char → List Char × List Char
  | [] => ([], [])
  | c :: cs =>
    if isLineEnd (c :: cs) then ([], c :: cs)
    else
      let (line, rest) := splitLine cs
      (c :: line, rest)

/-- The fault of a text that fits no rule. -/
def unexpected (cursor : Cursor) : LexError :=
  .unexpectedText (String.ofList ((splitLine cursor.rest).1.take 24)) cursor.place

/-- Skips to the next line with content: its number, and the text from its
    start. `lineStart` is the text from the start of the line that is being
    looked at. Where no content is left, the text returned is blank. -/
def seekContent (line : Nat) (lineStart : List Char) : List Char → Nat × List Char
  | [] => (line, lineStart)
  | '\n' :: cs => seekContent (line + 1) cs cs
  | '\r' :: '\n' :: cs => seekContent (line + 1) cs cs
  | c :: cs => if isInlineBlank c then seekContent line lineStart cs else (line, lineStart)

/-- The next line with content after a cursor at the end of a line: its number,
    its indentation and the text behind it. -/
def nextLine (cursor : Cursor) : Nat × List Char × List Char :=
  let (line, text) := seekContent cursor.place.line cursor.rest cursor.rest
  (line, text.takeWhile isInlineBlank, text.dropWhile isInlineBlank)

/-! ### Strings and groups -/

/-- The quotes that open a string in an expression. -/
def isQuote (c : Char) : Bool :=
  c == '"' || c == '\'' || c == '\x60'

/-- Takes a string whose opening quote has been read, with its closing quote.
    A backslash takes the character behind it along. -/
def scanString (quote : Char) : List Char → Option (List Char × List Char)
  | [] => none
  | '\\' :: c :: cs => (scanString quote cs).map fun (taken, rest) => ('\\' :: c :: taken, rest)
  | c :: cs =>
    if c == quote then some ([c], cs)
    else (scanString quote cs).map fun (taken, rest) => (c :: taken, rest)

/-- The state of a scan over an expression: outside of strings, or in one that
    was opened with a quote at a place. -/
inductive Quoting where
  /-- Outside of strings. -/
  | outside
  /-- In a string. -/
  | inside (quote : Char) (start : Position)

/-- Adds characters in front of what a scan has taken. -/
def taking (cs : List Char) (result : Except LexError (List Char × List Char)) :
    Except LexError (List Char × List Char) :=
  result.map fun (taken, rest) => (cs ++ taken, rest)

/-- Takes the value of an attribute, up to a blank, a comma or a closing
    parenthesis outside of all brackets and strings. -/
def scanValue (depth : Nat) (quoting : Quoting) (p : Position) :
    List Char → Except LexError (List Char × List Char)
  | [] =>
    match quoting with
    | .outside => .ok ([], [])
    | .inside _ start => .error (.unterminatedString start)
  | c :: cs =>
    match quoting with
    | .inside quote start =>
      if c == '\\' then
        match cs with
        | d :: ds => taking [c, d] (scanValue depth quoting ((p.next c).next d) ds)
        | [] => .error (.unterminatedString start)
      else
        taking [c] (scanValue depth (if c == quote then .outside else quoting) (p.next c) cs)
    | .outside =>
      if isQuote c then taking [c] (scanValue depth (.inside c p) (p.next c) cs)
      else if c == '(' || c == '[' || c == '\x7b' then
        taking [c] (scanValue (depth + 1) .outside (p.next c) cs)
      else if (c == ')' || c == ']' || c == '\x7d') && 0 < depth then
        taking [c] (scanValue (depth - 1) .outside (p.next c) cs)
      else if depth == 0 && (c == ')' || c == ',' || Text.isAsciiBlank c) then .ok ([], c :: cs)
      else taking [c] (scanValue depth .outside (p.next c) cs)

/-- Takes a group in parentheses whose opening one has been read at `start`. -/
def scanGroup (start : Position) (depth : Nat) (quoting : Quoting) (p : Position) :
    List Char → Except LexError (List Char × List Char)
  | [] =>
    match quoting with
    | .outside => .error (.unclosedAttributeBlock start)
    | .inside _ opened => .error (.unterminatedString opened)
  | c :: cs =>
    match quoting with
    | .inside quote opened =>
      if c == '\\' then
        match cs with
        | d :: ds => taking [c, d] (scanGroup start depth quoting ((p.next c).next d) ds)
        | [] => .error (.unterminatedString opened)
      else
        taking [c]
          (scanGroup start depth (if c == quote then .outside else quoting) (p.next c) cs)
    | .outside =>
      if isQuote c then taking [c] (scanGroup start depth (.inside c p) (p.next c) cs)
      else if c == '(' then taking [c] (scanGroup start (depth + 1) .outside (p.next c) cs)
      else if c == ')' then
        if depth ≤ 1 then .ok ([c], cs)
        else taking [c] (scanGroup start (depth - 1) .outside (p.next c) cs)
      else taking [c] (scanGroup start depth .outside (p.next c) cs)

/-! ### Attributes -/

/-- Takes the unquoted name of an attribute. Inside square brackets only the
    end of the line ends it. -/
def scanName (depth : Nat) : List Char → List Char × List Char
  | [] => ([], [])
  | c :: cs =>
    let stops :=
      c == '\n' || c == '\r' ||
        (depth == 0 && (c == ' ' || c == '\t' || c == '=' || c == ',' || c == ')' ||
          (c == '!' && cs.head? == some '=')))
    if stops then ([], c :: cs)
    else
      let depth := if c == '[' then depth + 1 else if c == ']' then depth - 1 else depth
      let (name, rest) := scanName depth cs
      (c :: name, rest)

/-- Takes the name of an attribute: the name itself, and how it is written. -/
def readName (cursor : Cursor) : Except LexError (List Char × List Char × List Char) :=
  match cursor.rest with
  | c :: cs =>
    if c == '"' || c == '\'' then
      match scanString c cs with
      | some (taken, rest) => .ok (taken.dropLast, c :: taken, rest)
      | none => .error (.unterminatedString cursor.place)
    else
      let (name, rest) := scanName 0 (c :: cs)
      if name.isEmpty then .error (unexpected cursor) else .ok (name, name, rest)
  | [] => .error (unexpected cursor)

/-- The sign between a name and a value, with the blanks in front of it, and
    whether the value is escaped. -/
def scanAssignment (cs : List Char) : Option (List Char × Bool × List Char) :=
  let blanks := cs.takeWhile isInlineBlank
  match cs.dropWhile isInlineBlank with
  | '=' :: rest => some (blanks ++ ['='], true, rest)
  | '!' :: '=' :: rest => some (blanks ++ ['!', '='], false, rest)
  | _ => none

/-- Takes an attribute. -/
def readAttribute (cursor : Cursor) : Except LexError (Token × Cursor) := do
  let (name, written, rest) ← readName cursor
  match scanAssignment rest with
  | none =>
    return (cursor.token (.attribute (String.ofList name) none true) written,
      cursor.advance written rest)
  | some (sign, escaped, rest) =>
    let blanks := rest.takeWhile isInlineBlank
    let before := written ++ sign ++ blanks
    let start := cursor.advance before (rest.dropWhile isInlineBlank)
    let (value, rest) ← scanValue 0 .outside start.place start.rest
    if value.isEmpty then .error (unexpected start)
    else
      return (cursor.token (.attribute (String.ofList name) (some (String.ofList value)) escaped)
          (before ++ value),
        cursor.advance (before ++ value) rest)

/-- What stands between attributes. -/
def isSeparator (c : Char) : Bool :=
  Text.isAsciiBlank c || c == ','

/-- Takes the attributes of a list opened at `start`, and its end. -/
def readAttributes (start : Position) : Nat → Cursor → Except LexError (List Token × Cursor)
  | 0, _ => .error (.unclosedAttributeBlock start)
  | fuel + 1, cursor =>
    let cursor :=
      cursor.advance (cursor.rest.takeWhile isSeparator) (cursor.rest.dropWhile isSeparator)
    match cursor.rest with
    | [] => .error (.unclosedAttributeBlock start)
    | ')' :: rest => .ok ([cursor.token .endAttributes [')']], cursor.advance [')'] rest)
    | _ => do
      let (token, cursor) ← readAttribute cursor
      let (others, cursor) ← readAttributes start fuel cursor
      return (token :: others, cursor)

/-! ### Elements -/

/-- What has been read of a line: its tokens, the place reached, and whether a
    block of raw text may follow. -/
structure LineTokens where
  /-- The tokens in their order. -/
  tokens : List Token
  /-- The end of the line. -/
  cursor : Cursor
  /-- Whether deeper lines that follow are raw text. -/
  opensBlock : Bool

/-- Adds tokens in front of those of a line. -/
def LineTokens.prepending (tokens : List Token) (line : LineTokens) : LineTokens :=
  { line with tokens := tokens ++ line.tokens }

/-- One token over a text, and the end of a line behind it. -/
def lastToken (cursor : Cursor) (kind : TokenKind) (taken rest : List Char)
    (opensBlock : Bool) : LineTokens :=
  ⟨[cursor.token kind taken], cursor.advance taken rest, opensBlock⟩

/-- The rest of a line as text. -/
def readText (cursor : Cursor) : LineTokens :=
  let (line, rest) := splitLine cursor.rest
  lastToken cursor (.text (String.ofList line)) line rest false

/-- Code to the end of the line, behind a marker of `size` characters. Deeper
    lines under a bare `-` are raw text. -/
def readCode (cursor : Cursor) (size : Nat) (buffered : Bool) : LineTokens :=
  let (line, rest) := splitLine cursor.rest
  let code := Text.trimLeft (line.drop size)
  lastToken cursor (.code (String.ofList code) buffered) line rest
    (!buffered && (Text.trim code).isEmpty)

/-- Takes a tag name. It ends with a word character, so that `div:` is `div`
    and a colon. -/
def scanTag (cs : List Char) : List Char × List Char :=
  let run := cs.takeWhile isTagChar
  let ending := (run.reverse.takeWhile fun c => c == ':' || c == '-').reverse
  (run.take (run.length - ending.length), ending ++ cs.dropWhile isTagChar)

/-- Reads a line from a place in the head of an element on; `started` tells
    whether the element has a name, a class or an id yet. -/
def readElement : Nat → Bool → Cursor → Except LexError LineTokens
  | 0, _, cursor => .error (unexpected cursor)
  | fuel + 1, started, cursor =>
    if isLineEnd cursor.rest then .ok ⟨[], cursor, false⟩
    else
      match cursor.rest with
      | [] => .ok ⟨[], cursor, false⟩
      | c :: cs =>
        if !started && (c.isAlphanum || c == '_') then
          let (name, rest) := scanTag (c :: cs)
          (readElement fuel true (cursor.advance name rest)).map
            (.prepending [cursor.token (.tag (String.ofList name)) name])
        -- Classes and ids may start an element, which is then a `div`.
        else if (c == '.' || c == '#') && cs.head?.any isLiteralChar then
          let name := cs.takeWhile isLiteralChar
          let kind := if c == '.' then TokenKind.classLiteral else TokenKind.idLiteral
          (readElement fuel true (cursor.advance (c :: name) (cs.dropWhile isLiteralChar))).map
            (.prepending [cursor.token (kind (String.ofList name)) (c :: name)])
        -- A dot at the end of a line: the deeper lines that follow are raw text.
        else if c == '.' then
          let blanks := cs.takeWhile isInlineBlank
          let rest := cs.dropWhile isInlineBlank
          if isLineEnd rest then
            .ok ⟨[cursor.token .dot [c]], cursor.advance (c :: blanks) rest, true⟩
          else .error (unexpected cursor)
        else if started && c == '(' then do
          let opened := cursor.advance [c] cs
          let (attributes, closed) ← readAttributes cursor.place (cs.length + 1) opened
          let line ← readElement fuel true closed
          return line.prepending (cursor.token .startAttributes [c] :: attributes)
        else if started && "&attributes(".toList.isPrefixOf (c :: cs) then do
          let marker := "&attributes(".toList
          let start := cursor.place.after "&attributes".toList
          let (group, rest) ←
            scanGroup start 1 .outside (cursor.place.after marker) (cs.drop (marker.length - 1))
          let line ← readElement fuel true (cursor.advance (marker ++ group) rest)
          return line.prepending
            [cursor.token (.andAttributes (String.ofList group.dropLast)) (marker ++ group)]
        -- Behind a colon the head of a nested element starts.
        else if started && c == ':' && cs.head?.any isInlineBlank then
          let blanks := cs.takeWhile isInlineBlank
          (readElement fuel false
              (cursor.advance (c :: blanks) (cs.dropWhile isInlineBlank))).map
            (.prepending [cursor.token .colon [c]])
        else if started && c == '/' && isLineEnd cs then
          (readElement fuel true (cursor.advance [c] cs)).map
            (.prepending [cursor.token .slash [c]])
        else if started && c == '=' then .ok (readCode cursor 1 true)
        else if started && c == '!' && cs.head? == some '=' then .ok (readCode cursor 2 true)
        -- One blank parts the head from its text; further blanks belong to the text.
        else if started && isInlineBlank c then
          let (line, rest) := splitLine cs
          if (Text.trim line).isEmpty then .ok ⟨[], cursor.advance (c :: line) rest, false⟩
          else .ok (readText (cursor.advance [c] cs))
        -- A `#` that starts no id starts an interpolation, and the line is text.
        else if !started && c == '#' then .ok (readText cursor)
        else .error (unexpected cursor)

/-! ### Lines -/

/-- The token of a line that is a document type or a control line. -/
def keywordLine? (line : List Char) : Option TokenKind :=
  let word := String.ofList (line.takeWhile Char.isLower)
  let behind := line.dropWhile Char.isLower
  if behind.isEmpty || behind.head? == some ' ' then
    let rest := Text.trim behind
    if word == "doctype" then some (.doctype (String.ofList rest))
    else
      (Keyword.ofWord? word).map fun keyword =>
        match keyword, rest with
        | .elseWord, 'i' :: 'f' :: condition =>
          if condition.isEmpty || condition.head? == some ' ' then
            .control .elseIf (String.ofList (Text.trim condition))
          else .control .elseWord (String.ofList rest)
        | _, _ => .control keyword (String.ofList rest)
  else none

/-- Reads the content of a line, behind its indentation. -/
def readLine (cursor : Cursor) : Except LexError LineTokens :=
  let element (started : Bool) (cursor : Cursor) :=
    readElement (cursor.rest.length + 1) started cursor
  let (line, rest) := splitLine cursor.rest
  match cursor.rest with
  | [] => .ok ⟨[], cursor, false⟩
  | '|' :: ' ' :: cs => .ok (readText (cursor.advance ['|', ' '] cs))
  | '|' :: cs => .ok (readText (cursor.advance ['|'] cs))
  | '<' :: _ => .ok (lastToken cursor (.html (String.ofList line)) line rest false)
  | '/' :: '/' :: '-' :: _ =>
    .ok (lastToken cursor (.comment (String.ofList (line.drop 3)) false) line rest true)
  | '/' :: '/' :: _ =>
    .ok (lastToken cursor (.comment (String.ofList (line.drop 2)) true) line rest true)
  | '-' :: _ => .ok (readCode cursor 1 false)
  | '=' :: _ => .ok (readCode cursor 1 true)
  | '!' :: '=' :: _ => .ok (readCode cursor 2 true)
  | '+' :: cs =>
    let name := cs.takeWhile isLiteralChar
    if name.isEmpty then .error (unexpected cursor)
    else
      (element true (cursor.advance ('+' :: name) (cs.dropWhile isLiteralChar))).map
        (.prepending [cursor.token (.call (String.ofList name)) ('+' :: name)])
  | _ =>
    match keywordLine? line with
    | some kind => .ok (lastToken cursor kind line rest false)
    | none => element false cursor

/-- Takes the lines of a block of raw text, those deeper than `parent`. `base`
    is the indentation of the first of them, which is no part of the text. -/
def readRawLines (parent : Nat) : Nat → Option Nat → Cursor → List Token × Cursor
  | 0, _, cursor => ([], cursor)
  | fuel + 1, base, cursor =>
    let (line, indentation, content) := nextLine cursor
    if content.isEmpty || indentation.length ≤ parent then
      match base with
      | some _ => ([cursor.token .endRawText []], cursor)
      | none => ([], cursor)
    else
      -- A line less deep than the first one loses the indentation it has.
      let column := min indentation.length (base.getD indentation.length)
      let start : Cursor := ⟨⟨line, 1⟩, indentation ++ content⟩
      let here := start.advance (indentation.take column) (indentation.drop column ++ content)
      let opening :=
        match base with
        | none => here.token .startRawText []
        | some _ => start.token .newline (indentation.take column)
      let text := readText here
      let (others, cursor) := readRawLines parent fuel (some (base.getD column)) text.cursor
      (opening :: text.tokens ++ others, cursor)

/-- The levels that stay open when the depth falls to `width`, and how many
    were closed. -/
def closeLevels (width : Nat) : List Nat → List Nat × Nat
  | [] => ([], 0)
  | level :: levels =>
    if width < level then
      let (remaining, closed) := closeLevels width levels
      (remaining, closed + 1)
    else (level :: levels, 0)

/-- The tokens for the indentation of a line and the levels open after it; the
    deepest level comes first, and depth zero is not listed. -/
def readIndentation (levels : List Nat) (line : Nat) (indentation : List Char) :
    Except LexError (List Token × List Nat) :=
  let width := indentation.length
  let start : Cursor := ⟨⟨line, 1⟩, indentation⟩
  let current := levels.headD 0
  if current < width then
    .ok ([start.token (.indent width) indentation], width :: levels)
  else if width < current then
    let (remaining, closed) := closeLevels width levels
    let restored := remaining.headD 0
    -- Levels are closed one by one, and the depth reached must be one of them.
    if restored == width then
      .ok (List.replicate closed (start.token .outdent indentation), remaining)
    else .error (.inconsistentIndentation line restored width)
  else .ok ([start.token .newline indentation], levels)

/-- The tokens at the end of a template: one for each open level, and the end. -/
def finish (levels : List Nat) (cursor : Cursor) : List Token :=
  levels.map (fun _ => cursor.token .outdent []) ++ [cursor.token .eos []]

/-- Reads the lines behind a cursor at the end of a line. -/
def readLines : Nat → List Nat → Bool → Cursor → Except LexError (List Token)
  | 0, levels, _, cursor => .ok (finish levels cursor)
  | fuel + 1, levels, opensBlock, cursor =>
    let (raw, cursor) :=
      if opensBlock then readRawLines (levels.headD 0) (cursor.rest.length + 1) none cursor
      else ([], cursor)
    let (line, indentation, content) := nextLine cursor
    let start : Cursor := ⟨⟨line, 1⟩, indentation ++ content⟩
    if cursor.rest.isEmpty then .ok (raw ++ finish levels cursor)
    else if content.isEmpty then
      .ok (raw ++ finish levels (start.advance indentation content))
    else do
      let (depth, levels) ← readIndentation levels line indentation
      let body ← readLine (start.advance indentation content)
      let others ← readLines fuel levels body.opensBlock body.cursor
      return raw ++ depth ++ body.tokens ++ others

/-- The cursor in front of the content of the first line; a byte order mark and
    the indentation of that line are skipped. -/
def firstContent (text : List Char) : Cursor :=
  let start : Cursor :=
    match text with
    | '\ufeff' :: cs => (⟨.first, text⟩ : Cursor).advance ['\ufeff'] cs
    | _ => ⟨.first, text⟩
  start.advance (start.rest.takeWhile isInlineBlank) (start.rest.dropWhile isInlineBlank)

/-- The tokens of a text. -/
def read (text : List Char) : Except LexError (List Token) := do
  let start := firstContent text
  let line ← if isLineEnd start.rest then .ok ⟨[], start, false⟩ else readLine start
  let others ← readLines (text.length + 1) [] line.opensBlock line.cursor
  return line.tokens ++ others

end Lexer

/-- The tokens of a template, or the fault that keeps it from being read. -/
def tokenize (template : String) : Except LexError (List Token) :=
  Lexer.read template.toList

end PugLint
