import Mathlib.Data.PFun
import PugLint.Token.Lexer

/-!
# Scanning templates byte by byte

A scanner goes over the bytes of a template and keeps the index that it has reached. It looks at
bytes by their indices, takes the text between two indices, and takes differences of numbers. Each
of these can go wrong: an index may be behind the end of the template or inside a character, and a
difference may be below zero. A scan in which something goes wrong has no result, and neither has
one that does not end. What is scanned again and again is scanned in the rounds of a loop, each of
which ends the loop or says from where it goes on. Lines and indices are numbers without an upper
bound.

Bytes are written as the characters of their numbers: a character of ASCII is its own byte, and the
bytes of the others are characters behind those of ASCII.

* `Scanner.loop`, `Scanner.Scan.loop`: rounds up to the end of a loop;
* `Scanner.run`: the tokens of a template, or the first fault in it, as its bytes are scanned.
-/

namespace PugLint

namespace Scanner

open Lexer (isTagChar isLiteralChar isInlineBlank isQuote isSeparator)

/-- How far a template has been scanned. -/
structure State where
  /-- The index of the next byte. -/
  index : Nat
  /-- The line reached, from one. -/
  line : Nat
  /-- The index of the first byte of that line. -/
  lineStart : Nat
  /-- The widths of the open levels, the deepest first; the last one is zero. -/
  levels : List Nat
  /-- The tokens so far. -/
  tokens : List Token
  deriving DecidableEq, Repr, Inhabited

/-- What a scan gives: nothing if something goes wrong in it, or if it does not end. -/
abbrev Scan := ExceptT LexError Option

/-- The difference of two numbers, unless it is below zero. -/
def minus? (a b : Nat) : Option Nat :=
  if b ≤ a then some (a - b) else none

/-! ### Loops -/

section Loops

variable {σ α : Type}

/-- Ends a loop with its result. -/
def stop {m : Type → Type} [Pure m] (result : α) : m (α ⊕ σ) :=
  pure (.inl result)

/-- Goes on with a loop from a state. -/
def again {m : Type → Type} [Pure m] (s : σ) : m (α ⊕ σ) :=
  pure (.inr s)

/-- A round as a partial function. -/
def partialRound (round : σ → Option (α ⊕ σ)) : σ →. α ⊕ σ :=
  fun s => Part.ofOption (round s)

open Classical in
/-- Goes round in a loop up to its end. There is no result if one of the rounds has none, or if the
    loop does not end. -/
noncomputable def loop (round : σ → Option (α ⊕ σ)) (s : σ) : Option α :=
  ((partialRound round).fix s).toOption

/-- Goes round in a loop up to its end or to a fault. -/
noncomputable def Scan.loop (round : σ → Scan (α ⊕ σ)) (s : σ) : Scan α :=
  ExceptT.mk <| Scanner.loop (fun s => do
    match ← (round s).run with
    | .ok (.inl result) => stop (.ok result)
    | .ok (.inr s) => again s
    | .error fault => stop (.error fault)) s

end Loops

namespace State

/-- The state some bytes further on, on the same line. -/
def skip (s : State) (count : Nat) : State :=
  { s with index := s.index + count }

/-- The state at another index on the same line. -/
def goTo (s : State) (index : Nat) : State :=
  { s with index := index }

/-- The place reached. -/
def place? (s : State) : Option Position := do
  let column ← minus? s.index s.lineStart
  return ⟨s.line, column + 1⟩

/-- Adds a token. -/
def push (s : State) (kind : TokenKind) (start stop : Position) : State :=
  { s with tokens := s.tokens ++ [⟨kind, start, stop⟩] }

/-- Adds the token over what has been scanned since an earlier state. -/
def mark (s before : State) (kind : TokenKind) : Option State := do
  let start ← before.place?
  let stop ← s.place?
  return s.push kind start stop

end State

/-- Closes levels as long as those that are open say so, with one token for each. -/
def popWhile (p : List Nat → Bool) (start stop : Position) :
    List Nat → List Token → List Nat × List Token
  | [], tokens => ([], tokens)
  | level :: levels, tokens =>
    if p (level :: levels) then popWhile p start stop levels (tokens ++ [⟨.outdent, start, stop⟩])
    else (level :: levels, tokens)

/-- The bytes of a text. -/
def bytes (text : List Char) : List Char :=
  (text.flatMap String.utf8EncodeChar).map Char.ofUInt8

/-- The byte at an index. -/
def byte? (text : List Char) (index : Nat) : Option Char :=
  (bytes text)[index]?

/-- The bytes from an index on, which may be the end. -/
def bytesFrom? (text : List Char) (index : Nat) : Option (List Char) :=
  if index ≤ (bytes text).length then some ((bytes text).drop index) else none

noncomputable section Scans

variable (text : List Char)

/-! ### Lines -/

/-- Whether an index is at the end of a line. -/
def endsLine (index : Nat) : Bool :=
  match byte? text index with
  | none => true
  | some c => c == '\n' || (c == '\r' && byte? text (index + 1) == some '\n')

/-- The index of the end of the line that an index is on. -/
def lineEnd? (index : Nat) : Option Nat := do
  let ahead ← bytesFrom? text index
  let stop := index + ahead.findIdx (· == '\n')
  if index < stop then
    let last ← minus? stop 1
    let c ← byte? text last
    if c == '\r' && stop < (bytes text).length then minus? stop 1 else return stop
  else return stop

/-- The number of blanks from an index on. -/
def measureIndent (index : Nat) : Nat :=
  (((bytes text).drop index).takeWhile isInlineBlank).length

/-- Takes a byte, which may be a line feed. -/
def bump (s : State) : Option State := do
  let c ← byte? text s.index
  if c == '\n' then
    return { s with index := s.index + 1, line := s.line + 1, lineStart := s.index + 1 }
  else return s.skip 1

/-- Takes a line break. -/
def lineBreak (s : State) : Option State :=
  let s := if byte? text s.index == some '\r' then s.skip 1 else s
  if byte? text s.index == some '\n' then bump text s else some s

/-- Takes the bytes of a class that is not that of line feeds. -/
def skipWhile (p : Char → Bool) : State → Option State :=
  loop fun s => if (byte? text s.index).any p then again (s.skip 1) else stop s

/-- The fault of a text that fits no rule. -/
def unexpected (s : State) : Option LexError := do
  let stop ← lineEnd? text s.index
  let snippet ← Text.slice? text s.index stop
  let place ← s.place?
  return .unexpectedText (String.ofList (snippet.take 24)) place

/-- Takes the rest of a line as one token. -/
def lexRest (kind : String → TokenKind) (s : State) : Option State := do
  let stop ← lineEnd? text s.index
  let value ← Text.slice? text s.index stop
  (s.goTo stop).mark s (kind (String.ofList value))

/-! ### Strings and groups -/

/-- A round inside of a string. -/
def stringRound (quote : Char) (start : Position) (s : State) : Scan (State ⊕ State) :=
  match byte? text s.index with
  | none => throw (.unterminatedString start)
  | some c =>
    if c == '\\' then
      -- The byte behind the backslash may be the first one of a longer character.
      if (byte? text (s.index + 1)).isSome then do
        let s ← bump text (s.skip 1)
        again s
      else again (s.skip 1)
    else if c == quote then stop (s.skip 1)
    else do
      let s ← bump text s
      again s

/-- Takes the rest of a string that was opened at `start`. -/
def skipString (quote : Char) (start : Position) : State → Scan State :=
  Scan.loop (stringRound text quote start)

/-- A round in a group in parentheses, at a depth. -/
def balancedRound (start : Position) : Nat × State → Scan (State ⊕ (Nat × State))
  | (depth, s) =>
    match byte? text s.index with
    | none => throw (.unclosedAttributeBlock start)
    | some c =>
      if isQuote c then do
        let opened ← s.place?
        let s ← skipString text c opened (s.skip 1)
        again (depth, s)
      else if c == '(' then do
        let s ← bump text s
        again (depth + 1, s)
      else if c == ')' then do
        let depth ← minus? depth 1
        if depth == 0 then stop (s.skip 1)
        else
          let s ← bump text s
          again (depth, s)
      else do
        let s ← bump text s
        again (depth, s)

/-- Takes a group in parentheses that was opened at `start`, from in front of its first one. -/
def skipBalanced (start : Position) (depth : Nat) (s : State) : Scan State :=
  Scan.loop (balancedRound text start) (depth, s)

/-! ### Attributes -/

/-- A round in the unquoted name of an attribute, at a depth of brackets. -/
def nameRound : Nat × State → Option (State ⊕ (Nat × State))
  | (depth, s) =>
    match byte? text s.index with
    | none => stop s
    | some c =>
      if c == '[' then again (depth + 1, s.skip 1)
      else if c == ']' then again (depth - 1, s.skip 1)
      else if c == '\n' || c == '\r' then stop s
      else if 0 < depth then again (depth, s.skip 1)
      else if c == ' ' || c == '\t' || c == '=' || c == ',' || c == ')' then stop s
      else if c == '!' && byte? text (s.index + 1) == some '=' then stop s
      else again (depth, s.skip 1)

/-- Takes the unquoted name of an attribute. -/
def skipName (depth : Nat) (s : State) : Option State :=
  loop (nameRound text) (depth, s)

/-- A round in the value of an attribute, at a depth of brackets. -/
def valueRound : Nat × State → Scan (State ⊕ (Nat × State))
  | (depth, s) =>
    match byte? text s.index with
    | none => stop s
    | some c =>
      if isQuote c then do
        let opened ← s.place?
        let s ← skipString text c opened (s.skip 1)
        again (depth, s)
      else if c == '(' || c == '[' || c == '\x7b' then do
        let s ← bump text s
        again (depth + 1, s)
      else if (c == ')' || c == ']' || c == '\x7d') && 0 < depth then do
        let depth ← minus? depth 1
        let s ← bump text s
        again (depth, s)
      else if depth == 0 && (c == ')' || c == ',' || Text.isAsciiBlank c) then stop s
      else do
        let s ← bump text s
        again (depth, s)

/-- Takes the value of an attribute behind the blanks in front of it. -/
def skipValue (depth : Nat) (s : State) : Scan State :=
  Scan.loop (valueRound text) (depth, s)

/-- Takes the value of an attribute. -/
def lexValue (s : State) : Scan (List Char × State) := do
  let start := s.skip (measureIndent text s.index)
  let s ← skipValue text 0 start
  if s.index == start.index then
    let fault ← unexpected text s
    throw fault
  else
    let value ← Text.slice? text start.index s.index
    return (value, s)

/-- Takes the name of an attribute. -/
def lexName (s : State) : Scan (List Char × State) := do
  if (byte? text s.index).any fun c => c == '"' || c == '\'' then
    let quote ← byte? text s.index
    let opened ← s.place?
    let behind ← skipString text quote opened (s.skip 1)
    let stop ← minus? behind.index 1
    let name ← Text.slice? text (s.index + 1) stop
    return (name, behind)
  else
    let behind ← skipName text 0 s
    if behind.index == s.index then
      let fault ← unexpected text behind
      throw fault
    else
      let name ← Text.slice? text s.index behind.index
      return (name, behind)

/-- Takes an attribute. -/
def lexAttribute (s : State) : Scan State := do
  let (name, behind) ← lexName text s
  let ahead := behind.index + measureIndent text behind.index
  let name := String.ofList name
  if byte? text ahead == some '=' then
    let (value, behind) ← lexValue text (behind.goTo (ahead + 1))
    behind.mark s (.attribute name (some (String.ofList value)) true)
  else if byte? text ahead == some '!' && byte? text (ahead + 1) == some '=' then
    let (value, behind) ← lexValue text (behind.goTo (ahead + 2))
    behind.mark s (.attribute name (some (String.ofList value)) false)
  else behind.mark s (.attribute name none true)

/-- Takes what stands between attributes. -/
def skipSeparators : State → Option State :=
  loop fun s => do
    if (byte? text s.index).any isSeparator then
      let s ← bump text s
      again s
    else stop s

/-- A round in a list of attributes opened at `start`. -/
def attributesRound (start : Position) (s : State) : Scan (State ⊕ State) := do
  let s ← skipSeparators text s
  match byte? text s.index with
  | none => throw (.unclosedAttributeBlock start)
  | some c =>
    if c == ')' then
      let s ← (s.skip 1).mark s .endAttributes
      stop s
    else
      let s ← lexAttribute text s
      again s

/-- Takes the attributes of a list opened at `start`, and its end. -/
def lexAttributes (start : Position) : State → Scan State :=
  Scan.loop (attributesRound text start)

/-! ### Elements -/

/-- Goes back over the colons and dashes at the end of a tag name. -/
def backUp (start : Nat) : State → Option State :=
  loop fun s => do
    if start + 1 < s.index then
      let last ← minus? s.index 1
      let c ← byte? text last
      if c == ':' || c == '-' then again (s.goTo last) else stop s
    else stop s

/-- Takes a tag name. -/
def lexTag (s : State) : Option State := do
  let behind ← skipWhile text isTagChar s
  let behind ← backUp text s.index behind
  let name ← Text.slice? text s.index behind.index
  behind.mark s (.tag (String.ofList name))

/-- Takes a class or an id with the sign in front of it. -/
def lexLiteral (kind : String → TokenKind) (s : State) : Option State := do
  let behind ← skipWhile text isLiteralChar (s.skip 1)
  let name ← Text.slice? text (s.index + 1) behind.index
  behind.mark s (kind (String.ofList name))

/-- Takes code behind a marker of `size` bytes to the end of the line. -/
def lexCode (size : Nat) (buffered : Bool) (s : State) : Option (List Char × State) := do
  let stop ← lineEnd? text s.index
  let code ← Text.slice? text (min (s.index + size) stop) stop
  let code := Text.trimLeft code
  let s ← (s.goTo stop).mark s (.code (String.ofList code) buffered)
  return (code, s)

/-- Whether a text starts at an index. -/
def startsWith? (start : List Char) (index : Nat) : Option Bool := do
  let rest ← Text.slice? text index (bytes text).length
  return start.isPrefixOf rest

/-- Takes a spread of attributes. -/
def lexSpread (s : State) : Scan State := do
  let start ← s.place?
  let opened := s.skip "&attributes".length
  let group ← opened.place?
  let behind ← skipBalanced text group 0 opened
  let stop ← minus? behind.index 1
  let value ← Text.slice? text (opened.index + 1) stop
  let place ← behind.place?
  return behind.push (.andAttributes (String.ofList value)) start place

/-- Takes a dot at the end of a line, and the blanks behind it. -/
def lexDot (s : State) : Scan State := do
  let width := measureIndent text (s.index + 1)
  if endsLine text (s.index + 1 + width) then
    let s ← (s.skip 1).mark s .dot
    return s.skip width
  else
    let fault ← unexpected text s
    throw fault

/-- Takes a list of attributes from in front of its parenthesis. -/
def lexList (s : State) : Scan State := do
  let start ← s.place?
  let s ← (s.skip 1).mark s .startAttributes
  lexAttributes text start s

/-- Takes a colon and the blanks behind it. -/
def lexColon (s : State) : Option State := do
  let s ← (s.skip 1).mark s .colon
  return s.skip (measureIndent text s.index)

/-- Takes a blank and the text behind it, unless that is blank as well. -/
def lexInline (s : State) : Option State := do
  let s := s.skip 1
  let stop ← lineEnd? text s.index
  let value ← Text.slice? text s.index stop
  if (Text.trim value).isEmpty then return s.goTo stop else lexRest text .text s

/-- A round in the head of an element; `started` tells whether the head has a part already. -/
def elementRound : Bool × State → Scan ((Bool × State) ⊕ (Bool × State))
  | (started, s) => do
    if endsLine text s.index then stop (false, s)
    else
      let c ← byte? text s.index
      if !started && (c.isAlphanum || c == '_') then
        let s ← lexTag text s
        again (true, s)
      else if (c == '.' || c == '#') && (byte? text (s.index + 1)).any isLiteralChar then
        let s ← lexLiteral text (if c == '.' then .classLiteral else .idLiteral) s
        again (true, s)
      else if c == '.' then
        let s ← lexDot text s
        stop (true, s)
      else if started && c == '(' then
        let s ← lexList text s
        again (true, s)
      else if started && c == '&' then
        let spreads ← startsWith? text "&attributes(".toList s.index
        if spreads then
          let s ← lexSpread text s
          again (true, s)
        else
          let fault ← unexpected text s
          throw fault
      else if started && c == ':' && (byte? text (s.index + 1)).any isInlineBlank then
        let s ← lexColon text s
        again (false, s)
      else if started && c == '/' && endsLine text (s.index + 1) then
        let s ← (s.skip 1).mark s .slash
        again (true, s)
      else if started && c == '=' then
        let (_, s) ← lexCode text 1 true s
        stop (false, s)
      else if started && c == '!' && byte? text (s.index + 1) == some '=' then
        let (_, s) ← lexCode text 2 true s
        stop (false, s)
      else if started && isInlineBlank c then
        let s ← lexInline text s
        stop (false, s)
      else if !started && c == '#' then
        let s ← lexRest text .text s
        stop (false, s)
      else
        let fault ← unexpected text s
        throw fault

/-- Scans a line from a place in the head of an element on, and tells whether a block of raw text
    may follow. -/
def lexElement (started : Bool) (s : State) : Scan (Bool × State) :=
  Scan.loop (elementRound text) (started, s)

/-! ### Lines -/

/-- The token of a document type or a control line, from its first word and what follows it. -/
def keywordKind? (word rest : List Char) : Option TokenKind :=
  if String.ofList word == "doctype" then some (.doctype (String.ofList rest))
  else
    (Keyword.ofWord? (String.ofList word)).map fun keyword =>
      match keyword, rest with
      | .elseWord, 'i' :: 'f' :: condition =>
        if condition.isEmpty || condition.head? == some ' ' then
          .control .elseIf (String.ofList (Text.trim condition))
        else .control .elseWord (String.ofList rest)
      | _, _ => .control keyword (String.ofList rest)

/-- Whether a word ends at an index. -/
def endsWord? (index : Nat) : Option Bool :=
  if endsLine text index then some true else (byte? text index).map (· == ' ')

/-- Takes a line that is a document type or a control line. -/
def lexKeyword (s : State) : Option (Option State) := do
  let ahead ← bytesFrom? text s.index
  let behind := s.index + (ahead.takeWhile Char.isLower).length
  let word ← Text.slice? text s.index behind
  let ends ← endsWord? text behind
  if ends then
    let stop ← lineEnd? text s.index
    let rest ← Text.slice? text behind stop
    match keywordKind? word (Text.trim rest) with
    | some kind =>
      let s ← (s.goTo stop).mark s kind
      return some s
    | none => return none
  else return none

/-- Takes a line of text behind a bar. -/
def lexBar (s : State) : Option State :=
  let s := s.skip 1
  lexRest text .text (if byte? text s.index == some ' ' then s.skip 1 else s)

/-- Takes a comment. -/
def lexComment (s : State) : Option State := do
  let buffered := byte? text (s.index + 2) != some '-'
  let stop ← lineEnd? text s.index
  let value ← Text.slice? text (min (s.index + if buffered then 2 else 3) stop) stop
  (s.goTo stop).mark s (.comment (String.ofList value) buffered)

/-- Takes the name of a mixin behind its sign. -/
def lexCall (s : State) : Scan State := do
  let behind ← skipWhile text isLiteralChar (s.skip 1)
  if behind.index == s.index + 1 then
    let index ← minus? behind.index 1
    let fault ← unexpected text (behind.goTo index)
    throw fault
  else
    let name ← Text.slice? text (s.index + 1) behind.index
    behind.mark s (.call (String.ofList name))

/-- Scans the content of a line, behind its indentation. -/
def lexLine (s : State) : Scan (Bool × State) :=
  match byte? text s.index with
  | none => return (false, s)
  | some c =>
    if c == '|' then do
      let s ← lexBar text s
      return (false, s)
    else if c == '<' then do
      let s ← lexRest text .html s
      return (false, s)
    else if c == '/' && byte? text (s.index + 1) == some '/' then do
      let s ← lexComment text s
      return (true, s)
    else if c == '-' then do
      let (code, s) ← lexCode text 1 false s
      return ((Text.trim code).isEmpty, s)
    else if c == '=' then do
      let (_, s) ← lexCode text 1 true s
      return (false, s)
    else if c == '!' && byte? text (s.index + 1) == some '=' then do
      let (_, s) ← lexCode text 2 true s
      return (false, s)
    else if c == '+' then do
      let s ← lexCall text s
      lexElement text true s
    else if c.isLower then do
      match ← lexKeyword text s with
      | some s => return (false, s)
      | none => lexElement text false s
    else lexElement text false s

/-- Goes to the next line with content and gives its indentation. -/
def seekLine : State → Option (Option Nat × State) :=
  loop fun s => do
    let s ← lineBreak text s
    let width := measureIndent text s.index
    if endsLine text (s.index + width) then
      let s := s.skip width
      if (bytes text).length ≤ s.index then stop (none, s) else again s
    else stop (some width, s)

/-- Takes an indentation, and opens or closes levels up to it. -/
def lexWidth (width : Nat) (s : State) : Scan State := do
  let start ← s.place?
  let s := s.skip width
  let stop ← s.place?
  let current := s.levels.headD 0
  if current < width then
    return { s with levels := width :: s.levels }.push (.indent width) start stop
  else if width < current then
    let (levels, tokens) := popWhile (·.head?.any (width < ·)) start stop s.levels s.tokens
    let restored := levels.headD 0
    if restored == width then return { s with levels := levels, tokens := tokens }
    else throw (.inconsistentIndentation s.line restored width)
  else return s.push .newline start stop

/-- Takes the line break behind a line and the indentation of the next one; `false` where no
    content is left. -/
def lexIndentation (s : State) : Scan (Bool × State) := do
  match ← seekLine text s with
  | (none, s) => return (false, s)
  | (some width, s) =>
    let s ← lexWidth width s
    return (true, s)

/-- The indentation of the next line with content behind an index at the end of a line. -/
def nextIndent : Nat → Option (Option Nat) :=
  loop fun index => do
    if (bytes text).length ≤ index then stop none
    else
      let c ← byte? text index
      let index := (if c == '\r' then index + 1 else index) + 1
      let width := measureIndent text index
      if endsLine text (index + width) then
        let index ← lineEnd? text (index + width)
        again index
      else stop (some width)

/-- Takes a line of raw text. `base` is the indentation of the first line of its block, if that is
    another one. -/
def lexRawLine (base : Option Nat) (width : Nat) (s : State) : Option State := do
  let lineStart ← s.place?
  let s := s.skip (min width (base.getD width))
  let here ← s.place?
  lexRest text .text
    (if base.isNone then s.push .startRawText here here else s.push .newline lineStart here)

/-- A round over the lines deeper than `parent`. -/
def rawRound (parent : Nat) :
    Option Nat × State → Option ((Option Nat × State) ⊕ (Option Nat × State))
  | (base, s) => do
    let next ← nextIndent text s.index
    if next.any (parent < ·) then
      let s ← lineBreak text s
      let width := measureIndent text s.index
      if endsLine text (s.index + width) then again (base, s.skip width)
      else
        let s ← lexRawLine text base width s
        again (some (base.getD width), s)
    else stop (base, s)

/-- Takes the lines of a block of raw text, those deeper than `parent`. -/
def lexRawLines (parent : Nat) (base : Option Nat) (s : State) : Option (Option Nat × State) :=
  loop (rawRound text parent) (base, s)

/-- Takes a block of raw text. -/
def lexRaw (s : State) : Option State := do
  let (base, s) ← lexRawLines text (s.levels.headD 0) none s
  if base.isSome then s.mark s .endRawText else return s

/-- Takes a block of raw text, if one has been opened. -/
def lexBlock (opensBlock : Bool) (s : State) : Option State :=
  if opensBlock then lexRaw text s else some s

/-- A round over a line, from the end of the one in front of it. -/
def lineRound : Bool × State → Scan (State ⊕ (Bool × State))
  | (opensBlock, s) => do
    if s.index < (bytes text).length then
      let s ← lexBlock text opensBlock s
      if opensBlock && (bytes text).length ≤ s.index then stop s
      else
        let (more, s) ← lexIndentation text s
        if more then
          let next ← lexLine text s
          again next
        else stop s
    else stop s

/-- Scans the lines behind a state at the end of a line. -/
def lexLines (opensBlock : Bool) (s : State) : Scan State :=
  Scan.loop (lineRound text) (opensBlock, s)

/-- Closes the levels that are open at the end of a template. -/
def finish (s : State) : Option State := do
  let here ← s.place?
  let (levels, tokens) := popWhile (1 < ·.length) here here s.levels s.tokens
  return { s with levels := levels, tokens := tokens }.push .eos here here

/-- The state in front of a text, behind its byte order mark. -/
def start : State :=
  ⟨if ['\xef', '\xbb', '\xbf'].isPrefixOf (bytes text) then 3 else 0, 1, 0, [0], []⟩

/-- Scans the first line, of which there may be nothing. -/
def lexFirst (s : State) : Scan (Bool × State) :=
  if endsLine text s.index then return (false, s) else lexLine text s

/-- Scans a text. -/
def scan : Scan (List Token) := do
  let s := start text
  let s := s.skip (measureIndent text s.index)
  let (opensBlock, s) ← lexFirst text s
  let s ← lexLines text opensBlock s
  let s ← finish s
  return s.tokens

end Scans

/-- The tokens of a template, or its first fault, if the scan of its bytes gives a result. -/
noncomputable def run (template : String) : Option (Except LexError (List Token)) :=
  (scan template.toList).run

end Scanner

end PugLint
