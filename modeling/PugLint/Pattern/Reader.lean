import PugLint.Pattern.Expr

/-!
# Reading regular expressions

The written form of regular expressions: groups with flags, sets of characters
with operations on them, counted repetitions and named properties. There is no
looking around and no reference back to a group; what is not part of the
language is refused.

Flags hold from where they are set to the end of the group around them.
-/

namespace PugLint.Pattern

/-- What changes the meaning of an expression. -/
structure Flags where
  /-- Whether upper and lower case are the same. -/
  caseless : Bool := false
  /-- Whether `^` and `$` stand for the ends of lines. -/
  multiLine : Bool := false
  /-- Whether `.` stands for the end of a line too. -/
  dotAll : Bool := false
  /-- Whether a carriage return ends a line. -/
  crlf : Bool := false
  /-- Whether sets and words are of all characters, not of ASCII alone. -/
  unicode : Bool := true
  /-- Whether blanks and comments are left out. -/
  verbose : Bool := false
  deriving DecidableEq, Repr, Inhabited

namespace Reader

/-- A text without the blanks and comments in front of it, in at most `fuel`
    steps. -/
def dropFiller : Nat → List Char → List Char
  | 0, cs => cs
  | fuel + 1, cs =>
    match cs.dropWhile Text.isBlank with
    | '#' :: rest => dropFiller fuel ((rest.dropWhile (· != '\n')).drop 1)
    | rest => rest

/-- A text without what the flags leave out in front of it. -/
def skip (flags : Flags) (cs : List Char) : List Char :=
  if flags.verbose then dropFiller (cs.length + 1) cs else cs

/-! ### Sets -/

/-- A set as the flags want it, and perhaps its complement. Without Unicode there
    is no complement, because it would hold parts of characters. -/
def finishSet? (flags : Flags) (negated : Bool) (set : CharSet) : Option CharSet :=
  let folded :=
    if !flags.caseless then set
    else if flags.unicode then .caseless set
    else .asciiCaseless set
  if negated && !flags.unicode then none else some (folded.negateIf negated)

/-- The set of a class letter. -/
def classLetter? (flags : Flags) (c : Char) : Option CharSet :=
  let pick (property : Property) (ascii : CharSet) : CharSet :=
    if flags.unicode then .property property else ascii
  let set? : Option CharSet :=
    match c.toLower with
    | 'd' => some (pick (.categories [.digit]) CharSet.digits)
    | 's' => some (pick .blank CharSet.asciiBlank)
    | 'w' => some (pick .word CharSet.asciiWord)
    | _ => none
  if c.isUpper && !flags.unicode then none else set?.map (·.negateIf c.isUpper)

/-- The property written between braces: a name, or a name and a value. -/
def property? (text : List Char) : Option (Bool × Property) :=
  let split (separator : String) : Option (List Char × List Char) :=
    let at? := (List.range (text.length + 1)).find? fun i =>
      separator.toList.isPrefixOf (text.drop i)
    at?.map fun i => (text.take i, text.drop (i + separator.length))
  match split "!=", split ":", split "=" with
  | some (name, value), _, _ => (Property.ofValue? name value).map (true, ·)
  | none, some (name, value), _ => (Property.ofValue? name value).map (false, ·)
  | none, none, some (name, value) => (Property.ofValue? name value).map (false, ·)
  | none, none, none => (Property.ofName? text).map (false, ·)

/-- Reads the property behind `\p` or `\P`. -/
def readProperty (flags : Flags) (negated : Bool) (cs : List Char) :
    Option (CharSet × List Char) := do
  if !flags.unicode then none
  let (text, rest) ←
    match skip flags cs with
    | '\x7b' :: cs =>
      match cs.dropWhile (· != '\x7d') with
      | _ :: rest => some (cs.takeWhile (· != '\x7d'), rest)
      | [] => none
    | c :: rest => if c == '\\' then none else some ([c], rest)
    | [] => none
  let (unequal, property) ← property? text
  let set ← finishSet? flags (negated != unequal) (.property property)
  return (set, rest)

/-! ### Escapes -/

/-- The value of a hexadecimal digit. -/
def hexDigit? (c : Char) : Option Nat :=
  if c.isDigit then some (c.toNat - '0'.toNat)
  else if 'a' ≤ c && c ≤ 'f' then some (c.toNat - 'a'.toNat + 10)
  else if 'A' ≤ c && c ≤ 'F' then some (c.toNat - 'A'.toNat + 10)
  else none

/-- The character with a code written in hexadecimal digits. -/
def hexChar? (digits : List Char) : Option Char := do
  if digits.isEmpty then none
  let n ← digits.foldlM (fun n c => (hexDigit? c).map (16 * n + ·)) 0
  if n < 0x110000 && !(0xD800 ≤ n && n < 0xE000) then some (Char.ofNat n) else none

/-- Reads the code of a character: a fixed number of digits, or any number of
    them between braces. -/
def readHex (count : Nat) (cs : List Char) : Option (Char × List Char) :=
  match cs with
  | '\x7b' :: cs =>
    match cs.dropWhile (· != '\x7d') with
    | _ :: rest => (hexChar? (cs.takeWhile (· != '\x7d'))).map (·, rest)
    | [] => none
  | cs => if cs.length < count then none else (hexChar? (cs.take count)).map (·, cs.drop count)

/-- The characters that mean something else unless they are escaped. -/
def isMeta (c : Char) : Bool :=
  "\\.+*?()|[]\x7b\x7d^$#&-~".toList.contains c

/-- What a backslash can stand in front of. -/
inductive Escape where
  /-- A character. -/
  | literal (c : Char)
  /-- A set of characters. -/
  | set (set : CharSet)
  /-- A condition on the place. -/
  | assertion (assertion : Assertion)

/-- Reads what follows `\b`: the kind of edge between braces, if there is one. -/
def readEdge (flags : Flags) (cs : List Char) : Option (Assertion × List Char) :=
  let ascii := !flags.unicode
  let isKindChar (c : Char) : Bool := c.isAlpha || c == '-'
  match cs with
  | '\x7b' :: rest =>
    match skip flags rest with
    | [] => none
    | c :: rest =>
      if isKindChar c then
        let kind := String.ofList ((c :: rest).takeWhile isKindChar)
        match (c :: rest).dropWhile isKindChar with
        | '\x7d' :: after =>
          if kind == "start" then some (.wordStart ascii, after)
          else if kind == "end" then some (.wordEnd ascii, after)
          else if kind == "start-half" then some (.noWordBefore ascii, after)
          else if kind == "end-half" then some (.noWordAfter ascii, after)
          else none
        | _ => none
      else some (.wordEdge ascii, cs)
  | _ => some (.wordEdge ascii, cs)

/-- Reads what follows a backslash. -/
def readEscape (flags : Flags) : List Char → Option (Escape × List Char)
  | [] => none
  | c :: cs =>
    let ascii := !flags.unicode
    let hex (count : Nat) : Option (Escape × List Char) :=
      (readHex count (skip flags cs)).map fun (c, rest) => (.literal c, rest)
    match c with
    | 'x' => hex 2
    | 'u' => hex 4
    | 'U' => hex 8
    | 'p' => (readProperty flags false cs).map fun (set, rest) => (.set set, rest)
    | 'P' => (readProperty flags true cs).map fun (set, rest) => (.set set, rest)
    | 'a' => some (.literal '\x07', cs)
    | 'f' => some (.literal '\x0c', cs)
    | 't' => some (.literal '\t', cs)
    | 'n' => some (.literal '\n', cs)
    | 'r' => some (.literal '\r', cs)
    | 'v' => some (.literal '\x0b', cs)
    | 'A' => some (.assertion .startText, cs)
    | 'z' => some (.assertion .endText, cs)
    | 'b' => (readEdge flags cs).map fun (edge, rest) => (.assertion edge, rest)
    | 'B' => some (.assertion (.noWordEdge ascii), cs)
    | '<' => some (.assertion (.wordStart ascii), cs)
    | '>' => some (.assertion (.wordEnd ascii), cs)
    | c =>
      if "dswDSW".toList.contains c then (classLetter? flags c).map fun set => (.set set, cs)
      else if isMeta c || (c.toNat < 128 && !c.isAlphanum) then some (.literal c, cs)
      else none

/-! ### Sets in brackets -/

/-- The operations on sets. -/
inductive SetOp where
  /-- What two sets share. -/
  | intersection
  /-- What only the first set has. -/
  | difference
  /-- What exactly one of them has. -/
  | symmetricDifference
  deriving DecidableEq, Repr, Inhabited

/-- A set combined with what stands in front of it; the flags hold for both. -/
def combine (flags : Flags) (before : Option (SetOp × CharSet)) (set : CharSet) : CharSet :=
  let folded (set : CharSet) : CharSet :=
    if !flags.caseless then set
    else if flags.unicode then .caseless set
    else .asciiCaseless set
  match before with
  | none => set
  | some (.intersection, left) => .intersection (folded left) (folded set)
  | some (.difference, left) => .difference (folded left) (folded set)
  | some (.symmetricDifference, left) => .symmetricDifference (folded left) (folded set)

/-- Reads the name of a set of ASCII characters, as in `[:alpha:]`. -/
def readAsciiName (flags : Flags) : List Char → Option (CharSet × List Char)
  | '[' :: ':' :: cs =>
    let (negated, cs) :=
      match cs with
      | '^' :: rest => (true, rest)
      | _ => (false, cs)
    match cs.dropWhile (· != ':') with
    | ':' :: ']' :: rest => do
      let set ← CharSet.asciiNamed.lookup (String.ofList (cs.takeWhile (· != ':')))
      let set ← finishSet? flags negated set
      return (set, rest)
    | _ => none
  | _ => none

/-- Reads a character or an escape in a set. -/
def readSetItem (flags : Flags) : List Char → Option (Escape × List Char)
  | [] => none
  | '\\' :: cs => readEscape flags cs
  | c :: cs => some (.literal c, cs)

/-- A character of a set; without Unicode only ASCII characters can be in sets. -/
def setChar? (flags : Flags) (c : Char) : Option Char :=
  if flags.unicode || c.toNat < 128 then some c else none

/-- Reads an item of a set, which may be a range. -/
def readRange (flags : Flags) (cs : List Char) : Option (CharSet × List Char) := do
  let (first, rest) ← readSetItem flags cs
  let rest := skip flags rest
  let single : Option (CharSet × List Char) :=
    match first with
    | .literal c => (setChar? flags c).map fun c => (.single c, rest)
    | .set set => some (set, rest)
    | .assertion _ => none
  match rest with
  | '-' :: behind =>
    let next := (skip flags behind).head?
    -- A dash at the end, or in front of a difference, makes no range.
    if next == some ']' || next == some '-' then single
    else
      let (last, rest) ← readSetItem flags (skip flags behind)
      match first, last with
      | .literal low, .literal high =>
        let low ← setChar? flags low
        let high ← setChar? flags high
        if low ≤ high then some (.range low high, rest) else none
      | _, _ => none
  | _ => single

/-- The start of a set behind its bracket: whether it is negated, the characters
    that stand for themselves there, and the rest. -/
def readSetStart (flags : Flags) (cs : List Char) : Option (Bool × CharSet × List Char) :=
  let cs := skip flags cs
  let (negated, cs) :=
    match cs with
    | '^' :: rest => (true, skip flags rest)
    | _ => (false, cs)
  match cs with
  | [] => none
  | ']' :: rest => some (negated, .single ']', rest)
  | '-' :: _ => some (negated, .single '-', dropDashes cs.length cs)
  | _ => some (negated, .empty, cs)
where
  /-- What follows the dashes in front of a text. -/
  dropDashes : Nat → List Char → List Char
  | fuel + 1, '-' :: rest => dropDashes fuel (skip flags rest)
  | _, cs => cs

/-- Reads a set behind its opening bracket and start, in at most `fuel` steps;
    `before` is what an operator combines it with, and `set` what has been read
    since then. -/
def readSet : Nat → Flags → Bool → Option (SetOp × CharSet) → CharSet → List Char →
    Option (CharSet × List Char)
  | 0, _, _, _, _, _ => none
  | fuel + 1, flags, negated, before, set, cs =>
    match skip flags cs with
    | [] => none
    | ']' :: rest => (finishSet? flags negated (combine flags before set)).map (·, rest)
    | '&' :: '&' :: rest =>
      readSet fuel flags negated (some (.intersection, combine flags before set)) .empty rest
    | '-' :: '-' :: rest =>
      readSet fuel flags negated (some (.difference, combine flags before set)) .empty rest
    | '~' :: '~' :: rest =>
      readSet fuel flags negated (some (.symmetricDifference, combine flags before set)) .empty
        rest
    | '[' :: rest =>
      -- What is no name of a set is a set of its own.
      match readAsciiName flags ('[' :: rest) with
      | some (named, rest) => readSet fuel flags negated before (.union set named) rest
      | none => do
        let (innerNegated, start, rest) ← readSetStart flags rest
        let (inner, rest) ← readSet fuel flags innerNegated none start rest
        readSet fuel flags negated before (.union set inner) rest
    | cs => do
      let (item, rest) ← readRange flags cs
      readSet fuel flags negated before (.union set item) rest

/-- Reads a set behind its opening bracket. -/
def readBracket (flags : Flags) (cs : List Char) : Option (CharSet × List Char) := do
  let (negated, start, rest) ← readSetStart flags cs
  readSet (2 * cs.length + 2) flags negated none start rest

/-! ### Repetitions -/

/-- Reads a number with blanks around it; `none` inside if there is no digit. -/
def readCount (flags : Flags) (cs : List Char) : Option (Option Nat × List Char) :=
  let cs := cs.dropWhile Text.isBlank
  let rec digits : Nat → List Char → List Char × List Char
    | fuel + 1, c :: rest =>
      if c.isDigit then
        let (found, rest) := digits fuel (skip flags rest)
        (c :: found, rest)
      else ([], c :: rest)
    | _, rest => ([], rest)
  let (found, rest) := digits cs.length cs
  let rest := skip flags (rest.dropWhile Text.isBlank)
  if found.isEmpty then some (none, rest)
  else
    let n := found.foldl (fun n c => 10 * n + (c.toNat - '0'.toNat)) 0
    if n < 0x100000000 then some (some n, rest) else none

/-- Reads the bounds of a repetition behind its brace. -/
def readBounds (flags : Flags) (cs : List Char) : Option (Nat × Option Nat × List Char) := do
  let (least, rest) ← readCount flags (skip flags cs)
  let least ← least
  match rest with
  | ',' :: rest =>
    match skip flags rest with
    | '\x7d' :: rest => some (least, none, rest)
    | rest =>
      let (most, rest) ← readCount flags rest
      let most ← most
      match rest with
      | '\x7d' :: rest => if least ≤ most then some (least, some most, rest) else none
      | _ => none
  | '\x7d' :: rest => some (least, some least, rest)
  | _ => none

/-- The text behind a mark that a repetition is to be as short as possible. -/
def dropLazy (cs : List Char) : List Char :=
  match cs with
  | '?' :: rest => rest
  | _ => cs

/-! ### Groups -/

/-- What the parentheses of a group start with. -/
inductive GroupStart where
  /-- Flags that hold from here on. -/
  | setFlags (flags : Flags)
  /-- A group with flags of its own and perhaps a name. -/
  | group (flags : Flags) (name : Option String)

/-- The flags with one of them set or unset; `none` for an unknown letter. -/
def setFlag? (flags : Flags) (letter : Char) (value : Bool) : Option Flags :=
  match letter with
  | 'i' => some { flags with caseless := value }
  | 'm' => some { flags with multiLine := value }
  | 's' => some { flags with dotAll := value }
  | 'R' => some { flags with crlf := value }
  | 'u' => some { flags with unicode := value }
  | 'x' => some { flags with verbose := value }
  | 'U' => some flags
  | _ => none

/-- Reads flags up to the mark behind them; `seen` are the letters so far, and
    `dangling` tells whether the last of them is a minus sign. -/
def readFlags (flags : Flags) (value : Bool) (seen : List Char) (dangling : Bool) :
    List Char → Option (Flags × List Char × Char × List Char)
  | [] => none
  | c :: cs =>
    if c == ':' || c == ')' then if dangling then none else some (flags, seen, c, cs)
    else if seen.contains c then none
    else if c == '-' then readFlags flags false (c :: seen) true cs
    else
      match setFlag? flags c value with
      | some flags => readFlags flags value (c :: seen) false cs
      | none => none

/-- Reads the name of a group and the mark behind it. -/
def readGroupName (cs : List Char) : Option (String × List Char) :=
  let name := cs.takeWhile (· != '>')
  let isNameChar (c : Char) : Bool :=
    c == '_' || c == '.' || c == '[' || c == ']' || Text.isAlphanumeric c
  match name, cs.dropWhile (· != '>') with
  | c :: more, _ :: rest =>
    if (c == '_' || Text.isAlphabetic c) && more.all isNameChar then
      some (String.ofList name, rest)
    else none
  | _, _ => none

/-- Reads what a group starts with, behind its parenthesis. -/
def readGroupStart (flags : Flags) (cs : List Char) : Option (GroupStart × List Char) :=
  match skip flags cs with
  | '?' :: '=' :: _ => none
  | '?' :: '!' :: _ => none
  | '?' :: '<' :: '=' :: _ => none
  | '?' :: '<' :: '!' :: _ => none
  | '?' :: 'P' :: '<' :: rest =>
    (readGroupName rest).map fun (name, rest) => (.group flags (some name), rest)
  | '?' :: '<' :: rest =>
    (readGroupName rest).map fun (name, rest) => (.group flags (some name), rest)
  | '?' :: rest =>
    match readFlags flags true [] false rest with
    | some (inner, seen, mark, rest) =>
      if mark == ':' then some (.group inner none, rest)
      else if seen.isEmpty then none
      else some (.setFlags inner, rest)
    | none => none
  | rest => some (.group flags none, rest)

/-! ### Expressions -/

/-- One character as the flags want it. Without Unicode, only ASCII characters
    have another case. -/
def literal? (flags : Flags) (c : Char) : Option Expr :=
  if flags.caseless && !flags.unicode && 128 ≤ c.toNat then none
  else (finishSet? flags false (.single c)).map .char

/-- Any character, line ends perhaps apart. -/
def anyChar? (flags : Flags) : Option Expr :=
  if !flags.unicode then none
  else if flags.dotAll then some (.char (.property .any))
  else
    let excluded := if flags.crlf then [CharSet.single '\n', .single '\r'] else [.single '\n']
    some (.char (.complement (.ofList excluded)))

/-- What has been read of an expression: alternatives that are complete, and the
    items of the one at hand, all in reverse. An item that only sets flags is
    `none`; it cannot be repeated. -/
structure Progress where
  /-- The alternatives that are complete. -/
  alternatives : List Expr := []
  /-- The items of the alternative at hand. -/
  items : List (Option Expr) := []

namespace Progress

/-- The alternative at hand. -/
def current (progress : Progress) : Expr :=
  progress.items.foldl (fun expr item => .sequence (item.getD .empty) expr) .empty

/-- The whole expression. -/
def finish (progress : Progress) : Expr :=
  progress.alternatives.foldl (fun expr alternative => .alternative alternative expr)
    progress.current

/-- One more item. -/
def push (progress : Progress) (item : Expr) : Progress :=
  { progress with items := some item :: progress.items }

/-- The last item repeated. -/
def repeat? (progress : Progress) (least : Nat) (most : Option Nat) : Option Progress :=
  match progress.items with
  | some item :: items => some { progress with items := some (.repetition item least most) :: items }
  | _ => none

end Progress

/-- Reads an expression up to the end of the group or text, in at most `fuel`
    steps. `names` are the names of groups so far. -/
def readExpr : Nat → Bool → Flags → List String → Progress → List Char →
    Option (Expr × List String × List Char)
  | 0, _, _, _, _, _ => none
  | fuel + 1, nested, flags, names, progress, cs =>
    match skip flags cs with
    | [] => if nested then none else some (progress.finish, names, [])
    | ')' :: rest => if nested then some (progress.finish, names, rest) else none
    -- Flags that were set in one alternative hold in those behind it, too.
    | '|' :: rest =>
      readExpr fuel nested flags names ⟨progress.current :: progress.alternatives, []⟩ rest
    | '(' :: rest =>
      match readGroupStart flags rest with
      | some (.setFlags inner, rest) =>
        readExpr fuel nested inner names { progress with items := none :: progress.items } rest
      | some (.group inner name, rest) =>
        if name.any names.contains then none
        else
          match readExpr fuel true inner (name.toList ++ names) {} rest with
          | some (body, names, rest) =>
            readExpr fuel nested flags names (progress.push body) rest
          | none => none
      | none => none
    | '[' :: rest => do
      let (set, rest) ← readBracket flags rest
      readExpr fuel nested flags names (progress.push (.char set)) rest
    | '?' :: rest => do
      readExpr fuel nested flags names (← progress.repeat? 0 (some 1)) (dropLazy rest)
    | '*' :: rest => do
      readExpr fuel nested flags names (← progress.repeat? 0 none) (dropLazy rest)
    | '+' :: rest => do
      readExpr fuel nested flags names (← progress.repeat? 1 none) (dropLazy rest)
    | '\x7b' :: rest => do
      let (least, most, rest) ← readBounds flags rest
      readExpr fuel nested flags names (← progress.repeat? least most)
        (dropLazy (skip flags rest))
    | '.' :: rest => do
      readExpr fuel nested flags names (progress.push (← anyChar? flags)) rest
    | '^' :: rest =>
      let edge := if flags.multiLine then .startLine flags.crlf else .startText
      readExpr fuel nested flags names (progress.push (.assertion edge)) rest
    | '$' :: rest =>
      let edge := if flags.multiLine then .endLine flags.crlf else .endText
      readExpr fuel nested flags names (progress.push (.assertion edge)) rest
    | '\\' :: rest => do
      let (escape, rest) ← readEscape flags rest
      let item ←
        match escape with
        | .literal c => literal? flags c
        | .set set => some (.char set)
        | .assertion edge => some (.assertion edge)
      readExpr fuel nested flags names (progress.push item) rest
    | c :: rest => do
      readExpr fuel nested flags names (progress.push (← literal? flags c)) rest

/-- The greatest size of an expression. -/
def maxWeight : Nat := 327680

end Reader

/-- Reads a regular expression under some flags. One that is too large is
    refused. -/
def Expr.parse? (flags : Flags) (text : List Char) : Option Expr :=
  match Reader.readExpr (2 * text.length + 2) false flags [] {} text with
  | some (expr, _, _) => if expr.weight ≤ Reader.maxWeight then some expr else none
  | none => none

end PugLint.Pattern
