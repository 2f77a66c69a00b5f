import PugLint.Text.Blank
import PugLint.Text.LetterCase

/-!
# Naming conventions

The four conventions a rule may ask for: `kebab-case`, `camelCase`,
`PascalCase` and `snake_case`. Each has a check and a conversion. The checks
look at the letters of ASCII only, while the conversions change the case of
every letter; `CaseStyle.convertExact` therefore keeps a name whose conversion
does not pass the check.
-/

namespace PugLint

/-- A naming convention. -/
inductive CaseStyle where
  /-- Lower-case words joined by dashes. -/
  | kebab
  /-- Words joined without a mark, all but the first capitalized. -/
  | camel
  /-- Capitalized words joined without a mark. -/
  | pascal
  /-- Lower-case words joined by underscores. -/
  | snake
  deriving DecidableEq, Repr

namespace Casing

/-- The symbols that no convention admits. Dashes, underscores, blanks and the
    dollar sign are judged by each convention on its own. -/
def isSymbol (c : Char) : Bool :=
  "!\"#%&'()*+,./:;<=>?@[\\]^`\x7b|\x7d".toList.contains c

/-- The word characters next to which a capital starts a new word. -/
def isHumpBase (c : Char) : Bool :=
  c.isAlphanum || c == '_'

/-- Whether two neighbouring characters both equal `c`. -/
def hasDouble (c : Char) : List Char → Bool
  | a :: b :: cs => (a == c && b == c) || hasDouble c (b :: cs)
  | _ => false

/-- Puts `mark` before every capital of ASCII that follows a word character;
    `previous` is the character in front of the text. -/
def splitHumps (mark : Char) (previous : Option Char) : List Char → List Char
  | [] => []
  | c :: cs =>
    let rest := c :: splitHumps mark (some c) cs
    if c.isUpper && previous.any isHumpBase then mark :: rest else rest

/-- Drops each dash or underscore in front of a word character, which takes its
    upper case. -/
def joinHumps : List Char → List Char
  | a :: b :: cs =>
    if (a == '-' || a == '_') && isHumpBase b then Text.toUpper b ++ joinHumps cs
    else a :: joinHumps (b :: cs)
  | cs => cs

/-- Whether a name is in kebab-case. -/
def isKebab (s : List Char) : Bool :=
  !(s.any Char.isUpper || s.any isSymbol || s.head? == some '-' || s.contains '_' ||
    hasDouble '-' s || s.any Text.isBlank)

/-- Whether a name is in snake_case. -/
def isSnake (s : List Char) : Bool :=
  !(s.any Char.isUpper || s.any isSymbol || s.contains '-' || hasDouble '_' s ||
    s.any Text.isBlank)

/-- Whether a name is in camelCase. -/
def isCamel (s : List Char) : Bool :=
  !(s.any isSymbol || s.head?.any Char.isUpper || s.contains '-' || s.contains '_' ||
    s.any Text.isBlank)

/-- Whether a name is in PascalCase. -/
def isPascal (s : List Char) : Bool :=
  !(s.any isSymbol || s.head?.any Char.isLower || s.contains '-' || s.contains '_' ||
    s.any Text.isBlank)

/-- Replaces every `a` by `b`. -/
def replaceChar (a b : Char) (s : List Char) : List Char :=
  s.map fun c => if c == a then b else c

/-- A name turned into kebab-case. -/
def toKebab (s : List Char) : List Char :=
  Text.lowercase (splitHumps '-' none (replaceChar '_' '-' s))

/-- A name turned into snake_case. -/
def toSnake (s : List Char) : List Char :=
  Text.lowercase (replaceChar '-' '_' (splitHumps '_' none s))

/-- A name turned into camelCase. -/
def toCamel (s : List Char) : List Char :=
  if isPascal s then Text.uncapitalize s else joinHumps s

/-- A name turned into PascalCase. -/
def toPascal (s : List Char) : List Char :=
  Text.capitalize (toCamel s)

end Casing

namespace CaseStyle

/-- The spelling of a convention in a configuration. -/
def spelling : CaseStyle → String
  | kebab => "kebab-case"
  | camel => "camelCase"
  | pascal => "PascalCase"
  | snake => "snake_case"

/-- The convention with a given spelling. -/
def ofSpelling? (name : String) : Option CaseStyle :=
  [kebab, camel, pascal, snake].find? (·.spelling == name)

/-- Whether a name follows the convention. -/
def check : CaseStyle → String → Bool
  | kebab, s => Casing.isKebab s.toList
  | camel, s => Casing.isCamel s.toList
  | pascal, s => Casing.isPascal s.toList
  | snake, s => Casing.isSnake s.toList

/-- A name changed towards the convention. -/
def convert : CaseStyle → String → String
  | kebab, s => String.ofList (Casing.toKebab s.toList)
  | camel, s => String.ofList (Casing.toCamel s.toList)
  | pascal, s => String.ofList (Casing.toPascal s.toList)
  | snake, s => String.ofList (Casing.toSnake s.toList)

/-- A name changed towards the convention, kept as it is when the result
    still fails the check. -/
def convertExact (style : CaseStyle) (s : String) : String :=
  let converted := style.convert s
  if style.check converted then converted else s

theorem ofSpelling?_spelling (style : CaseStyle) : ofSpelling? style.spelling = some style := by
  cases style <;> decide

end CaseStyle

/-- A text with its first character in upper case. -/
def capitalize (s : String) : String :=
  String.ofList (Text.capitalize s.toList)

end PugLint
