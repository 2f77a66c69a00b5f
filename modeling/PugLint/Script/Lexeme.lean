import PugLint.Text.Category
import PugLint.Text.Letter
import PugLint.Text.Search

/-!
# Lexemes of scripts

Scanners for the smallest parts of a script: names, words, punctuators, strings,
numbers, regular expressions and the text of templates. Most of them skip the
blanks and comments in front of what they scan.
-/

namespace PugLint.Script

/-! ### Blanks and comments -/

/-- The characters that end a line. -/
def isLineEnd (c : Char) : Bool :=
  c == '\n' || c == '\r' || c.toNat == 0x2028 || c.toNat == 0x2029

/-- The characters between lexemes. -/
def isSpace (c : Char) : Bool :=
  c == ' ' || c == '\t' || isLineEnd c || c.toNat == 0x0b || c.toNat == 0x0c ||
    c.toNat == 0xa0 || c.toNat == 0xfeff || (127 < c.toNat && Text.category c == .space)

/-- What is being skipped. -/
inductive BlankMode where
  /-- Blanks. -/
  | blanks
  /-- A slash, at the given text, which may open a comment. -/
  | slash (opening : List Char)
  /-- A comment to the end of the line. -/
  | line
  /-- A comment up to its closing mark; `star` tells whether a star has just been
      read. It was opened at the given text, behind blanks among which a line
      did or did not end. -/
  | block (opening : List Char) (newLine : Bool) (star : Bool)

/-- A text without the blanks and comments in front, and whether a line ends
    among them. A comment that is not closed stays. -/
def skipBlanksFrom (mode : BlankMode) (newLine : Bool) : List Char → Bool × List Char
  | [] =>
    match mode with
    | .block opening newLine _ => (newLine, opening)
    | .slash opening => (newLine, opening)
    | _ => (newLine, [])
  | c :: rest =>
    match mode with
    | .blanks =>
      if isSpace c then skipBlanksFrom .blanks (newLine || isLineEnd c) rest
      else if c == '/' then skipBlanksFrom (.slash (c :: rest)) newLine rest
      else (newLine, c :: rest)
    | .slash opening =>
      if c == '/' then skipBlanksFrom .line newLine rest
      else if c == '*' then skipBlanksFrom (.block opening newLine false) newLine rest
      else (newLine, opening)
    | .line =>
      if isLineEnd c then skipBlanksFrom .blanks true rest
      else skipBlanksFrom .line newLine rest
    | .block opening before star =>
      if star && c == '/' then skipBlanksFrom .blanks newLine rest
      else skipBlanksFrom (.block opening before (c == '*')) (newLine || isLineEnd c) rest

/-- Whether blanks or comments can start with a character. -/
def startsBlank (c : Char) : Bool :=
  c == '/' || isSpace c

/-- A text without the blanks and comments in front. -/
def skipBlanks (text : List Char) : List Char :=
  match text with
  | c :: _ => if startsBlank c then (skipBlanksFrom .blanks false text).2 else text
  | [] => []

/-- Whether a line ends among the blanks and comments in front of a text. -/
def startsWithNewLine (text : List Char) : Bool :=
  match text with
  | c :: _ => startsBlank c && (skipBlanksFrom .blanks false text).1
  | [] => false

/-! ### Names and words -/

/-- The value of a hexadecimal digit. -/
def hexValue? (c : Char) : Option Nat :=
  if c.isDigit then some (c.toNat - '0'.toNat)
  else if 'a' ≤ c && c ≤ 'f' then some (c.toNat - 'a'.toNat + 10)
  else if 'A' ≤ c && c ≤ 'F' then some (c.toNat - 'A'.toNat + 10)
  else none

/-- The number written in hexadecimal digits, of which there is at least one. -/
def hexNumber? (digits : List Char) : Option Nat :=
  if digits.isEmpty then none
  else digits.foldlM (fun n c => (hexValue? c).map (16 * n + ·)) 0

/-- Reads the code behind `\u`: four digits, or digits between braces. -/
def readUnicodeEscape? (text : List Char) : Option (Nat × List Char) :=
  match text with
  | '\x7b' :: rest =>
    let digits := rest.takeWhile (· != '\x7d')
    match hexNumber? digits, rest.drop digits.length with
    | some n, _ :: rest => if n < 0x110000 then some (n, rest) else none
    | _, _ => none
  | _ =>
    let digits := text.take 4
    if digits.length < 4 then none else (hexNumber? digits).map (·, text.drop 4)

/-- Reads the rest of a name that has escapes in it, at most `fuel` of them. -/
def readEscapedName : Nat → List Char → Option (List Char × List Char)
  | fuel + 1, '\\' :: rest =>
    match rest with
    | 'u' :: rest =>
      match readUnicodeEscape? rest with
      | some (n, rest) =>
        if Text.isNameContinue (Char.ofNat n) then
          (readEscapedName fuel (rest.dropWhile Text.isNameContinue)).map fun (name, behind) =>
            (Char.ofNat n :: rest.takeWhile Text.isNameContinue ++ name, behind)
        else none
      | none => none
    | _ => none
  | _, text => some ([], text)

/-- Reads a name at the start of a text. -/
def readName (text : List Char) : Option (List Char × List Char) :=
  let plain := text.takeWhile Text.isNameContinue
  match plain, text.dropWhile Text.isNameContinue with
  | [], '\\' :: rest =>
    match readEscapedName (rest.length + 1) ('\\' :: rest) with
    | some (c :: name, rest) => if Text.isNameStart c then some (c :: name, rest) else none
    | _ => none
  | [], _ => none
  | c :: more, '\\' :: rest =>
    if Text.isNameStart c then
      (readEscapedName (rest.length + 1) ('\\' :: rest)).map fun (name, rest) =>
        (c :: more ++ name, rest)
    else none
  | c :: more, rest => if Text.isNameStart c then some (c :: more, rest) else none

/-- Whether a name goes on at the start of a text. -/
def continuesName (text : List Char) : Bool :=
  match text with
  | c :: _ => Text.isNameContinue c || c == '\\'
  | [] => false

/-- A name, reserved or not. -/
def scanName (text : List Char) : Option (List Char × List Char) :=
  readName (skipBlanks text)

/-- The words that cannot be names of bindings. -/
def reservedWords : List String :=
  ["await", "break", "case", "catch", "class", "const", "continue", "debugger", "default",
   "delete", "do", "else", "enum", "export", "extends", "false", "finally", "for", "function",
   "if", "import", "in", "instanceof", "new", "null", "return", "super", "switch", "this",
   "throw", "true", "try", "typeof", "var", "void", "while", "with"]

/-- A name that is not reserved. -/
def scanIdentifier (text : List Char) : Option (List Char × List Char) :=
  match scanName text with
  | some (name, rest) =>
    if reservedWords.contains (String.ofList name) then none else some (name, rest)
  | none => none

/-- What follows a given text. -/
def dropText : List Char → List Char → Option (List Char)
  | [], rest => some rest
  | c :: cs, d :: ds => if c == d then dropText cs ds else none
  | _ :: _, [] => none

/-- A given word. -/
def scanWord (word : List Char) (text : List Char) : Option (List Char) :=
  match dropText word (skipBlanks text) with
  | some rest => if continuesName rest then none else some rest
  | none => none

/-- A private name. -/
def scanPrivateName (text : List Char) : Option (List Char × List Char) :=
  match skipBlanks text with
  | '#' :: rest => readName rest
  | _ => none

/-! ### Punctuators -/

/-- All punctuators that an operator can be, the longer ones first. -/
def operators : List (List Char) :=
  [">>>=", "...", "===", "!==", "**=", "<<=", ">>=", ">>>", "&&=", "||=", "??=", "=>", "==",
   "!=", "<=", ">=", "&&", "||", "??", "?.", "++", "--", "+=", "-=", "*=", "/=", "%=", "&=",
   "|=", "^=", "<<", ">>", "**", "+", "-", "*", "/", "%", "&", "|", "^", "<", ">", "!", "~",
   "=", "?"].map String.toList

/-- The operators between two operands. -/
def binaryOperators : List (List Char) :=
  ["===", "!==", "==", "!=", "<=", ">=", "&&", "||", "??", "<<", ">>", ">>>", "**", "+", "-",
   "*", "/", "%", "&", "|", "^", "<", ">"].map String.toList

/-- The operators that assign. -/
def assignmentOperators : List (List Char) :=
  ["=", "+=", "-=", "*=", "/=", "%=", "**=", "<<=", ">>=", ">>>=", "&=", "|=", "^=", "&&=",
   "||=", "??="].map String.toList

/-- The operators in front of one operand. -/
def prefixOperators : List (List Char) :=
  ["!", "~", "+", "-"].map String.toList

/-- The operators that change their operand. -/
def updateOperators : List (List Char) :=
  ["++", "--"].map String.toList

/-- The longest operator at the start of a text, if it is one of those wanted. -/
def scanOperator (wanted : List (List Char)) (text : List Char) :
    Option (List Char × List Char) :=
  let text := skipBlanks text
  match operators.find? (·.isPrefixOf text) with
  | some operator =>
    if wanted.contains operator then some (operator, text.drop operator.length) else none
  | none => none

/-- A given punctuator. -/
def scanPunctuator (punctuator : List Char) (text : List Char) : Option (List Char) :=
  dropText punctuator (skipBlanks text)

/-- A given punctuator that is not followed by some characters. -/
def scanPunctuatorAlone (punctuator followers : List Char) (text : List Char) :
    Option (List Char) :=
  match scanPunctuator punctuator text with
  | some rest => if rest.head?.any followers.contains then none else some rest
  | none => none

/-- The question mark of a conditional expression. -/
def scanQuestion (text : List Char) : Option (List Char) :=
  match skipBlanks text with
  | '?' :: '?' :: _ => none
  | '?' :: '.' :: c :: rest => if c.isDigit then some ('.' :: c :: rest) else none
  | '?' :: rest => some rest
  | _ => none

/-- The mark of an optional member. -/
def scanOptionalMark (text : List Char) : Option (List Char) :=
  match skipBlanks text with
  | '?' :: '.' :: rest => if rest.head?.any Char.isDigit then none else some rest
  | _ => none

/-! ### Literals -/

/-- Whether a backslash may stand in front of a text in a string: a code is
    written in full. -/
def isEscape (text : List Char) : Bool :=
  match text with
  | 'u' :: rest => (readUnicodeEscape? rest).isSome
  | 'x' :: a :: b :: _ => (hexValue? a).isSome && (hexValue? b).isSome
  | 'x' :: _ => false
  | [] => false
  | _ => true

/-- Reads a string behind its quote, up to and without the closing one. -/
def readStringBody (quote : Char) : List Char → Option (List Char × List Char)
  | [] => none
  | '\\' :: '\r' :: '\n' :: rest =>
    (readStringBody quote rest).map fun (body, rest) => ('\\' :: '\n' :: body, rest)
  | '\\' :: c :: rest =>
    if isEscape (c :: rest) then
      (readStringBody quote rest).map fun (body, rest) => ('\\' :: c :: body, rest)
    else none
  | c :: rest =>
    if c == quote then some ([], rest)
    else if c == '\n' || c == '\r' || c == '\\' then none
    else (readStringBody quote rest).map fun (body, rest) => (c :: body, rest)

/-- A string; the text is what stands between its quotes. -/
def scanString (text : List Char) : Option (List Char × List Char) :=
  match skipBlanks text with
  | '"' :: rest => readStringBody '"' rest
  | '\'' :: rest => readStringBody '\'' rest
  | _ => none

/-- The characters with some codes. Two halves of a surrogate pair give one
    character. -/
def decodeUnits : List Nat → List Char
  | high :: low :: rest =>
    if 0xD800 ≤ high && high < 0xDC00 && 0xDC00 ≤ low && low < 0xE000 then
      Char.ofNat (0x10000 + (high - 0xD800) * 0x400 + (low - 0xDC00)) :: decodeUnits rest
    else Char.ofNat high :: decodeUnits (low :: rest)
  | [unit] => [Char.ofNat unit]
  | [] => []

/-- The codes of the characters that the body of a string stands for, in at most
    `fuel` steps. -/
def stringUnits : Nat → List Char → List Nat
  | 0, _ => []
  | _, [] => []
  | fuel + 1, '\\' :: 'u' :: rest =>
    match readUnicodeEscape? rest with
    | some (n, rest) => n :: stringUnits fuel rest
    | none => stringUnits fuel rest
  | fuel + 1, '\\' :: 'x' :: a :: b :: rest =>
    (hexNumber? [a, b]).getD 0 :: stringUnits fuel rest
  | fuel + 1, '\\' :: c :: rest =>
    if isLineEnd c then stringUnits fuel rest
    else
      let unit :=
        match c with
        | 'n' => 10
        | 't' => 9
        | 'r' => 13
        | 'b' => 8
        | 'f' => 12
        | 'v' => 11
        | '0' => 0
        | c => c.toNat
      unit :: stringUnits fuel rest
  | fuel + 1, c :: rest => c.toNat :: stringUnits fuel rest

/-- The text that the body of a string stands for. -/
def stringValue (body : List Char) : List Char :=
  decodeUnits (stringUnits (body.length + 1) body)

/-- Digits of a kind with single underscores between them. -/
def takeDigits (isDigit : Char → Bool) : List Char → List Char × List Char
  | '_' :: c :: rest =>
    if isDigit c then
      let (digits, rest) := takeDigits isDigit rest
      (c :: digits, rest)
    else ([], '_' :: c :: rest)
  | c :: rest =>
    if isDigit c then
      let (digits, rest) := takeDigits isDigit rest
      (c :: digits, rest)
    else ([], c :: rest)
  | [] => ([], [])

/-- What follows the exponent of a number, if there is one. -/
def skipExponent (text : List Char) : Option (List Char) :=
  match text with
  | c :: rest =>
    if c == 'e' || c == 'E' then
      let rest :=
        match rest with
        | '+' :: rest => rest
        | '-' :: rest => rest
        | rest => rest
      let (digits, rest) := takeDigits Char.isDigit rest
      if digits.isEmpty then none else some rest
    else some text
  | [] => some []

/-- What follows a number in another base, whose mark has been read. -/
def skipBased (isDigit : Char → Bool) (text : List Char) : Option (List Char) :=
  let (digits, rest) := takeDigits isDigit text
  if digits.isEmpty then none
  else
    match rest with
    | 'n' :: rest => some rest
    | rest => some rest

/-- What follows a number in base ten. -/
def skipDecimal (text : List Char) : Option (List Char) :=
  let (whole, rest) := takeDigits Char.isDigit text
  match rest with
  | '.' :: rest =>
    let (fraction, rest) := takeDigits Char.isDigit rest
    if whole.isEmpty && fraction.isEmpty then none else skipExponent rest
  | 'n' :: rest => if whole.isEmpty then none else some rest
  | rest => if whole.isEmpty then none else skipExponent rest

/-- A number. No name may follow it directly. -/
def scanNumber (text : List Char) : Option (List Char) :=
  let rest :=
    match skipBlanks text with
    | '0' :: 'x' :: rest => skipBased (fun c => (hexValue? c).isSome) rest
    | '0' :: 'X' :: rest => skipBased (fun c => (hexValue? c).isSome) rest
    | '0' :: 'o' :: rest => skipBased (fun c => '0' ≤ c && c ≤ '7') rest
    | '0' :: 'O' :: rest => skipBased (fun c => '0' ≤ c && c ≤ '7') rest
    | '0' :: 'b' :: rest => skipBased (fun c => c == '0' || c == '1') rest
    | '0' :: 'B' :: rest => skipBased (fun c => c == '0' || c == '1') rest
    | text => skipDecimal text
  match rest with
  | some rest => if continuesName rest then none else some rest
  | none => none

/-- What follows the body of a regular expression; `inClass` tells whether it is
    inside of square brackets. -/
def skipRegexBody (inClass : Bool) : List Char → Option (List Char)
  | [] => none
  | '\\' :: c :: rest => if isLineEnd c then none else skipRegexBody inClass rest
  | c :: rest =>
    if isLineEnd c || c == '\\' then none
    else if c == '/' && !inClass then some rest
    else skipRegexBody (if c == '[' then true else if c == ']' then false else inClass) rest

/-- Whether the flags of a regular expression are known and none is repeated. -/
def areRegexFlags : List Char → Bool
  | [] => true
  | c :: rest => "dgimsuvy".toList.contains c && !rest.contains c && areRegexFlags rest

/-- A regular expression. -/
def scanRegex (text : List Char) : Option (List Char) :=
  match skipBlanks text with
  | '/' :: c :: rest =>
    if c == '*' || c == '/' then none
    else
      match skipRegexBody false (c :: rest) with
      | some rest =>
        if areRegexFlags (rest.takeWhile Text.isNameContinue) then
          some (rest.dropWhile Text.isNameContinue)
        else none
      | none => none
  | _ => none

/-- What follows the text of a template up to its end or an expression in it. -/
def skipTemplateText : List Char → List Char
  | [] => []
  | '\\' :: _ :: rest => skipTemplateText rest
  | '$' :: '\x7b' :: rest => '$' :: '\x7b' :: rest
  | c :: rest => if c == '\x60' then c :: rest else skipTemplateText rest

/-- Whether a backslash may stand in front of a text in a template that no
    function takes: digits have no meaning there, except for a single zero. -/
def isTemplateEscape (text : List Char) : Bool :=
  match text with
  | '0' :: c :: _ => !c.isDigit
  | c :: rest => !('1' ≤ c && c ≤ '9') && isEscape (c :: rest)
  | [] => false

/-- What follows the text of a template that no function takes, up to its end or
    an expression in it. -/
def skipPlainTemplateText : List Char → Option (List Char)
  | [] => some []
  | '\\' :: c :: rest =>
    if isTemplateEscape (c :: rest) then skipPlainTemplateText rest else none
  | '$' :: '\x7b' :: rest => some ('$' :: '\x7b' :: rest)
  | c :: rest => if c == '\x60' then some (c :: rest) else skipPlainTemplateText rest

/-- The name of an element in markup: names with hyphens, joined by dots or a
    colon. -/
def scanTagName (text : List Char) : Option (List Char × List Char) :=
  let isPart (c : Char) : Bool := Text.isNameContinue c || c == '-' || c == '.' || c == ':'
  match skipBlanks text with
  | c :: rest =>
    if Text.isNameStart c then some (c :: rest.takeWhile isPart, rest.dropWhile isPart) else none
  | [] => none

/-- What follows the text between the tags of markup. -/
def skipMarkupText (text : List Char) : Option (List Char) :=
  let isPart (c : Char) : Bool := c != '<' && c != '>' && c != '\x7b' && c != '\x7d'
  match text with
  | c :: rest => if isPart c then some (rest.dropWhile isPart) else none
  | [] => none

/-- What follows a string in markup, which has no escapes. -/
def scanMarkupString (text : List Char) : Option (List Char) :=
  match skipBlanks text with
  | c :: rest =>
    if c == '"' || c == '\'' then
      match rest.dropWhile (· != c) with
      | _ :: rest => some rest
      | [] => none
    else none
  | [] => none

end PugLint.Script
