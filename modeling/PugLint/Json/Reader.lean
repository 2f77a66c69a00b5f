import PugLint.Json.Value

/-!
# Reading JSON

A text is read in two steps. The first follows the grammar alone and gives a
tree of what is written, numbers and strings as they stand. The second gives
the tree its value; it refuses what the grammar admits but no value can hold: a
number too large, half of a surrogate pair, nesting that is too deep. A part of
a document that nobody asks for thus only has to follow the grammar.

* `parseTree?`: the tree of a text;
* `Tree.value?`: the value of a tree.
-/

namespace PugLint.Json

/-- A piece of a written string. -/
inductive StringPiece where
  /-- A character. -/
  | char (c : Char)
  /-- A code unit, written by its four hexadecimal digits. -/
  | unit (n : Nat)
  deriving DecidableEq, Repr

/-- A written number. -/
structure NumberText where
  /-- Whether a minus sign stands in front. -/
  isNegative : Bool
  /-- The digits in front of the point. -/
  whole : List Char
  /-- The digits behind the point, none if there is no point. -/
  fraction : List Char
  /-- The sign and the digits of the exponent, if there is one. -/
  exponent : Option (Bool × List Char)
  deriving DecidableEq, Repr

/-- What a text says, before numbers and strings are given their values. -/
inductive Tree where
  /-- The null value. -/
  | null
  /-- A truth value. -/
  | bool (b : Bool)
  /-- A number. -/
  | number (n : NumberText)
  /-- A string. -/
  | string (pieces : List StringPiece)
  /-- An array. -/
  | array (items : List Tree)
  /-- An object with all of its fields, also repeated ones. -/
  | object (fields : List (List StringPiece × Tree))
  deriving Inhabited

/-! ### The grammar -/

/-- The blanks between the parts of a document. -/
def isSpace (c : Char) : Bool :=
  c == ' ' || c == '\t' || c == '\n' || c == '\r'

/-- A text without leading blanks. -/
def skipSpaces (cs : List Char) : List Char :=
  cs.dropWhile isSpace

/-- The value of a hexadecimal digit. -/
def hexValue? (c : Char) : Option Nat :=
  if c.isDigit then some (c.toNat - '0'.toNat)
  else if 'a' ≤ c && c ≤ 'f' then some (c.toNat - 'a'.toNat + 10)
  else if 'A' ≤ c && c ≤ 'F' then some (c.toNat - 'A'.toNat + 10)
  else none

/-- The value of four hexadecimal digits. -/
def hexUnit? (a b c d : Char) : Option Nat := do
  return (((← hexValue? a) * 16 + (← hexValue? b)) * 16 + (← hexValue? c)) * 16 + (← hexValue? d)

/-- What a backslash and a character stand for. -/
def unescape? (c : Char) : Option Char :=
  if c == '"' || c == '\\' || c == '/' then some c
  else if c == 'b' then some '\x08'
  else if c == 'f' then some '\x0c'
  else if c == 'n' then some '\n'
  else if c == 'r' then some '\r'
  else if c == 't' then some '\t'
  else none

/-- Reads a string behind its opening quote. -/
def readString : List Char → Option (List StringPiece × List Char)
  | [] => none
  | '"' :: cs => some ([], cs)
  | '\\' :: 'u' :: a :: b :: c :: d :: cs => do
    let n ← hexUnit? a b c d
    let (pieces, rest) ← readString cs
    return (.unit n :: pieces, rest)
  | '\\' :: c :: cs => do
    let c ← unescape? c
    let (pieces, rest) ← readString cs
    return (.char c :: pieces, rest)
  | c :: cs =>
    if c.toNat < 32 || c == '\\' then none
    else (readString cs).map fun (pieces, rest) => (.char c :: pieces, rest)

/-- Reads digits, at least one. -/
def readDigits? (cs : List Char) : Option (List Char × List Char) :=
  let digits := cs.takeWhile Char.isDigit
  if digits.isEmpty then none else some (digits, cs.dropWhile Char.isDigit)

/-- Reads the exponent of a number, if there is one. -/
def readExponent? (cs : List Char) : Option (Option (Bool × List Char) × List Char) :=
  match cs with
  | c :: rest =>
    if c == 'e' || c == 'E' then
      let (isNegative, rest) :=
        match rest with
        | '+' :: rest => (false, rest)
        | '-' :: rest => (true, rest)
        | rest => (false, rest)
      (readDigits? rest).map fun (digits, rest) => (some (isNegative, digits), rest)
    else some (none, cs)
  | [] => some (none, [])

/-- Reads a number. A zero in front stands alone. -/
def readNumber? (cs : List Char) : Option (NumberText × List Char) := do
  let (isNegative, cs) :=
    match cs with
    | '-' :: cs => (true, cs)
    | cs => (false, cs)
  let (whole, cs) ← readDigits? cs
  if whole.head? == some '0' && 1 < whole.length then none
  let (fraction, cs) ←
    match cs with
    | '.' :: cs => readDigits? cs
    | cs => some ([], cs)
  let (exponent, cs) ← readExponent? cs
  return (⟨isNegative, whole, fraction, exponent⟩, cs)

mutual

/-- Reads a value, in at most `fuel` steps. -/
def readTree : Nat → List Char → Option (Tree × List Char)
  | 0, _ => none
  | fuel + 1, cs =>
    match skipSpaces cs with
    | '"' :: cs => (readString cs).map fun (pieces, rest) => (.string pieces, rest)
    | '[' :: cs =>
      match skipSpaces cs with
      | ']' :: rest => some (.array [], rest)
      | cs => (readItems fuel cs).map fun (items, rest) => (.array items, rest)
    | '\x7b' :: cs =>
      match skipSpaces cs with
      | '\x7d' :: rest => some (.object [], rest)
      | cs => (readFields fuel cs).map fun (fields, rest) => (.object fields, rest)
    | 'n' :: 'u' :: 'l' :: 'l' :: rest => some (.null, rest)
    | 't' :: 'r' :: 'u' :: 'e' :: rest => some (.bool true, rest)
    | 'f' :: 'a' :: 'l' :: 's' :: 'e' :: rest => some (.bool false, rest)
    | cs => (readNumber? cs).map fun (n, rest) => (.number n, rest)

/-- Reads the items of an array, at least one, and its end. -/
def readItems : Nat → List Char → Option (List Tree × List Char)
  | 0, _ => none
  | fuel + 1, cs => do
    let (item, rest) ← readTree fuel cs
    match skipSpaces rest with
    | ',' :: rest =>
      let (items, rest) ← readItems fuel rest
      return (item :: items, rest)
    | ']' :: rest => return ([item], rest)
    | _ => none

/-- Reads the fields of an object, at least one, and its end. -/
def readFields : Nat → List Char → Option (List (List StringPiece × Tree) × List Char)
  | 0, _ => none
  | fuel + 1, cs =>
    match skipSpaces cs with
    | '"' :: cs => do
      let (key, rest) ← readString cs
      match skipSpaces rest with
      | ':' :: rest =>
        let (value, rest) ← readTree fuel rest
        match skipSpaces rest with
        | ',' :: rest =>
          let (fields, rest) ← readFields fuel rest
          return ((key, value) :: fields, rest)
        | '\x7d' :: rest => return ([(key, value)], rest)
        | _ => none
      | _ => none
    | _ => none

end

/-- The tree of a text that is one value. -/
def parseTree? (text : String) : Option Tree :=
  let cs := text.toList
  match readTree (2 * cs.length + 2) cs with
  | some (tree, rest) => if (skipSpaces rest).isEmpty then some tree else none
  | none => none

/-! ### Values -/

/-- The text of a written string. A leading surrogate must be followed by a
    trailing one, and the two give one character. -/
def decodeString? : List StringPiece → Option (List Char)
  | [] => some []
  | .char c :: pieces => (decodeString? pieces).map (c :: ·)
  | .unit n :: pieces =>
    if 0xD800 ≤ n && n < 0xDC00 then
      match pieces with
      | .unit m :: pieces =>
        if 0xDC00 ≤ m && m < 0xE000 then
          (decodeString? pieces).map
            (Char.ofNat (0x10000 + (n - 0xD800) * 0x400 + (m - 0xDC00)) :: ·)
        else none
      | _ => none
    else if 0xDC00 ≤ n && n < 0xE000 then none
    else (decodeString? pieces).map (Char.ofNat n :: ·)

/-- The digits of a number that fit into 64 bits. -/
structure Significand where
  /-- The number that the digits taken form. -/
  value : Nat
  /-- How many digits were taken. -/
  taken : Nat
  /-- The digits left out. -/
  left : List Char

/-- Takes digits as long as the number that they form fits into 64 bits. -/
def takeDigits (value taken : Nat) : List Char → Significand
  | [] => ⟨value, taken, []⟩
  | d :: ds =>
    let next := 10 * value + (d.toNat - '0'.toNat)
    if next < 0x10000000000000000 then takeDigits next (taken + 1) ds else ⟨value, taken, d :: ds⟩

/-- The number `significand · 10 ^ exponent`, by multiplications and divisions
    of floating-point numbers; `none` if it is too large. -/
def scaleFloat? : Nat → Float → Int → Option Float
  | 0, x, _ => some x
  | fuel + 1, x, exponent =>
    if exponent.natAbs ≤ 308 then
      let power := Float.ofScientific 1 false exponent.natAbs
      if 0 ≤ exponent then
        let y := x * power
        if y.isInf then none else some y
      else some (x / power)
    -- Beyond the range of the powers, only what shrinks has a value.
    else if x == 0.0 then some x
    else if 0 ≤ exponent then none
    else scaleFloat? fuel (x / 1e308) (exponent + 308)

/-- The floating-point number of a written number. -/
def floatValue? (n : NumberText) : Option Float := do
  let whole := takeDigits 0 0 n.whole
  let all := takeDigits whole.value 0 n.fraction
  -- Digits that were left out of the whole part still count as powers of ten,
  -- those left out of the fraction are lost.
  let exponent := (whole.left.length : Int) - all.taken
  let written :=
    match n.exponent with
    | some (isNegative, digits) =>
      let e := digits.foldl (fun e d => 10 * e + (d.toNat - '0'.toNat)) 0
      if isNegative then -(e : Int) else (e : Int)
    | none => 0
  let x ←
    if all.value == 0 then some 0.0
    else if 0x80000000 ≤ written then none
    else if written ≤ -0x80000000 then some 0.0
    else scaleFloat? 16 all.value.toUInt64.toFloat (exponent + written)
  return if n.isNegative then -x else x

/-- The value of a written number: an integer if it is written as one and fits,
    otherwise a floating-point number. Zero with a sign is no integer. -/
def numberValue? (n : NumberText) : Option Number :=
  let whole := takeDigits 0 0 n.whole
  if n.fraction.isEmpty && n.exponent.isNone && whole.left.isEmpty then
    if !n.isNegative then some (.natural whole.value)
    else if 0 < whole.value && whole.value ≤ 0x8000000000000000 then some (.negative whole.value)
    else (floatValue? n).map .float
  else (floatValue? n).map .float

/-- Puts a field into an object whose keys are in order; a key that is there
    already gets the new value. -/
def insertField (key : String) (value : Value) :
    List (String × Value) → List (String × Value)
  | [] => [(key, value)]
  | (k, v) :: fields =>
    if key == k then (key, value) :: fields
    else if key < k then (key, value) :: (k, v) :: fields
    else (k, v) :: insertField key value fields

mutual

/-- The value of a tree with room for so many levels of arrays and objects. The
    keys of objects come in order, and of equal keys the last one counts. -/
def Tree.value? (room : Nat) : Tree → Option Value
  | .null => some .null
  | .bool b => some (.bool b)
  | .number n => (numberValue? n).map .number
  | .string pieces => (decodeString? pieces).map fun cs => .string (String.ofList cs)
  | .array items => if room == 0 then none else (Tree.values? (room - 1) items).map .array
  | .object fields =>
    if room == 0 then none else (Tree.fields? (room - 1) fields []).map .object

/-- The values of the items of an array. -/
def Tree.values? (room : Nat) : List Tree → Option (List Value)
  | [] => some []
  | item :: items => do
    let value ← Tree.value? room item
    let values ← Tree.values? room items
    return value :: values

/-- The values of the fields of an object, added to those in front of them. -/
def Tree.fields? (room : Nat) :
    List (List StringPiece × Tree) → List (String × Value) → Option (List (String × Value))
  | [], done => some done
  | (key, tree) :: fields, done => do
    let key ← decodeString? key
    let value ← Tree.value? room tree
    Tree.fields? room fields (insertField (String.ofList key) value done)

end

/-- How deep arrays and objects may be nested. -/
def maxDepth : Nat := 127

end PugLint.Json
