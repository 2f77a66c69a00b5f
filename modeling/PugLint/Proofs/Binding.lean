import PugLint.Proofs.Text.Category
import PugLint.Proofs.Token.Scanning
import PugLint.Script
import PugLint.Script.Lexeme

/-!
# Patterns and how they are written

What a declaration binds is a name, or a pattern that takes an object or an array apart: a property
is bound under its own name, or by a pattern behind its key, and the last place of a pattern may
take the rest. A pattern is written as tokens, with blanks between them.

* `Binding.Pattern`: the patterns;
* `Binding.Pattern.names`: the names that a pattern binds, in their order;
* `Binding.Pattern.inScript`: the syntax of a pattern in a script, which binds the same names;
* `Binding.Pattern.tokens`: the tokens of a pattern;
* `Binding.isSpaced`: whether a text is one of some tokens with blanks between them.
-/

namespace PugLint.Binding

open Text

/-! ### Names and keys -/

/-- Whether a text is a name, reserved or not. -/
def isName : List Char → Bool
  | c :: cs => isNameStart c && cs.all isNameContinue
  | [] => false

/-- A name, reserved or not. -/
structure Name where
  /-- Its characters. -/
  chars : List Char
  isName_chars : isName chars = true

/-- A name that can be bound. -/
structure Identifier extends Name where
  not_reserved : Script.reservedWords.contains (String.ofList chars) = false

/-- The identifier of a given text. -/
def Identifier.of (text : String) (h : isName text.toList = true := by decide)
    (h' : Script.reservedWords.contains (String.ofList text.toList) = false := by decide) :
    Identifier :=
  ⟨⟨text.toList, h⟩, h'⟩

/-- A string in quotes. -/
structure Quoted where
  /-- The quote in front and behind. -/
  quote : Char
  /-- What stands between the quotes. -/
  body : List Char
  isQuote_quote : quote = '"' ∨ quote = '\''
  /-- The string ends at its last quote, whatever stands behind it. -/
  ends : ∀ rest, (Script.readStringBody quote (body ++ quote :: rest)).map Prod.snd = some rest

/-- A number in decimal digits. -/
structure Numeral where
  /-- Its digits. -/
  digits : List Char
  ne_nil : digits ≠ []
  isDigit_digits : digits.all Char.isDigit = true

/-- The key of a property. -/
inductive Key where
  /-- A name. -/
  | name (name : Name)
  /-- A string. -/
  | string (string : Quoted)
  /-- A number. -/
  | number (number : Numeral)

/-! ### Patterns -/

mutual

/-- What a declaration binds. -/
inductive Pattern where
  /-- A name. -/
  | name (name : Identifier)
  /-- The properties of an object. -/
  | object (properties : Properties)
  /-- The items of an array. -/
  | array (items : Items)

/-- The properties in a pattern. -/
inductive Properties where
  /-- No property. -/
  | nil
  /-- The name for all other properties. -/
  | rest (name : Identifier)
  /-- A property under its own name. -/
  | shorthand (name : Identifier) (more : Properties)
  /-- The pattern for the property with a given key. -/
  | keyed (key : Key) (pattern : Pattern) (more : Properties)

/-- The items in a pattern. -/
inductive Items where
  /-- No item. -/
  | nil
  /-- The pattern for all other items. -/
  | rest (pattern : Pattern)
  /-- The pattern for an item. -/
  | cons (pattern : Pattern) (more : Items)

end

mutual

/-- The names that a pattern binds, in their order. -/
def Pattern.names : Pattern → List (List Char)
  | .name name => [name.chars]
  | .object properties => properties.names
  | .array items => items.names

/-- The names that properties bind, in their order. -/
def Properties.names : Properties → List (List Char)
  | .nil => []
  | .rest name => [name.chars]
  | .shorthand name more => name.chars :: more.names
  | .keyed _ pattern more => pattern.names ++ more.names

/-- The names that items bind, in their order. -/
def Items.names : Items → List (List Char)
  | .nil => []
  | .rest pattern => pattern.names
  | .cons pattern more => pattern.names ++ more.names

end

/-! ### Patterns in a script -/

/-- The key in the syntax of scripts. -/
def Key.inScript : Key → Script.PropertyKey
  | .name n => .identifier (String.ofList n.chars)
  | .string s => .string (String.ofList (Script.stringValue s.body))
  | .number _ => .other

/-- The pattern that is a name alone. -/
def Identifier.inScript (name : Identifier) : Script.BindingPattern :=
  .identifier (String.ofList name.chars)

mutual

/-- The pattern in the syntax of scripts. -/
def Pattern.inScript : Pattern → Script.BindingPattern
  | .name name => name.inScript
  | .object properties => .object properties.inScript properties.rest?
  | .array items => .array items.inScript items.rest?

/-- The properties in the syntax of scripts. One under its own name has that name as its key. -/
def Properties.inScript : Properties → List Script.BindingProperty
  | .nil => []
  | .rest _ => []
  | .shorthand name more => .mk (Key.name name.toName).inScript name.inScript :: more.inScript
  | .keyed key pattern more => .mk key.inScript pattern.inScript :: more.inScript

/-- What takes all other properties. -/
def Properties.rest? : Properties → Option Script.BindingPattern
  | .nil => none
  | .rest name => some name.inScript
  | .shorthand _ more => more.rest?
  | .keyed _ _ more => more.rest?

/-- The items in the syntax of scripts. -/
def Items.inScript : Items → List (Option Script.BindingPattern)
  | .nil => []
  | .rest _ => []
  | .cons pattern more => some pattern.inScript :: more.inScript

/-- What takes all other items. -/
def Items.rest? : Items → Option Script.BindingPattern
  | .nil => none
  | .rest pattern => some pattern.inScript
  | .cons _ more => more.rest?

end

section

open Script.BindingPattern

mutual

/-- A script binds the names of a pattern, in their order. -/
theorem Pattern.names_inScript (pattern : Pattern) :
    pattern.inScript.names = pattern.names.map String.ofList := by
  match pattern with
  | .name name => rfl
  | .object properties => exact properties.names_inScript
  | .array items => exact items.names_inScript

theorem Properties.names_inScript (properties : Properties) :
    namesOfProperties properties.inScript ++ namesOfRest properties.rest? =
      properties.names.map String.ofList := by
  match properties with
  | .nil => rfl
  | .rest name => rfl
  | .shorthand name more => exact congrArg _ more.names_inScript
  | .keyed key pattern more =>
    rw [Properties.names, List.map_append, ← pattern.names_inScript, ← more.names_inScript,
      ← List.append_assoc]
    rfl

theorem Items.names_inScript (items : Items) :
    namesOfElements items.inScript ++ namesOfRest items.rest? =
      items.names.map String.ofList := by
  match items with
  | .nil => rfl
  | .rest pattern => exact pattern.names_inScript
  | .cons pattern more =>
    rw [Items.names, List.map_append, ← pattern.names_inScript, ← more.names_inScript,
      ← List.append_assoc]
    rfl

end

end

/-! ### Tokens -/

/-- The punctuators of patterns. -/
inductive Mark where
  /-- The brace in front of properties. -/
  | openBrace
  /-- The brace behind properties. -/
  | closeBrace
  /-- The bracket in front of items. -/
  | openBracket
  /-- The bracket behind items. -/
  | closeBracket
  /-- The parenthesis in front of a list of patterns. -/
  | openParen
  /-- The parenthesis behind a list of patterns. -/
  | closeParen
  /-- The comma between patterns. -/
  | comma
  /-- The colon behind a key. -/
  | colon
  /-- The dots in front of what takes the rest. -/
  | spread
  deriving DecidableEq

/-- The text of a punctuator. -/
def Mark.text : Mark → List Char
  | openBrace => ['\x7b']
  | closeBrace => ['\x7d']
  | openBracket => ['[']
  | closeBracket => [']']
  | openParen => ['(']
  | closeParen => [')']
  | comma => [',']
  | colon => [':']
  | spread => ['.', '.', '.']

/-- A token of a pattern. -/
inductive Token where
  /-- A key, or a name that is bound. -/
  | key (key : Key)
  /-- A punctuator. -/
  | mark (mark : Mark)

/-- The token of a name. -/
def Name.token (name : Name) : Token :=
  .key (.name name)

/-- The text of a key. -/
def Key.text : Key → List Char
  | .name n => n.chars
  | .string s => s.quote :: (s.body ++ [s.quote])
  | .number n => n.digits

/-- The text of a token. -/
def Token.text : Token → List Char
  | .key k => k.text
  | .mark m => m.text

/-- Whether no name may follow a token directly. -/
def Token.isWord : Token → Bool
  | .key (.string _) | .mark _ => false
  | _ => true

mutual

/-- The tokens of a pattern. -/
def Pattern.tokens : Pattern → List Token
  | .name name => [name.token]
  | .object properties => .mark .openBrace :: (properties.tokens.tail ++ [.mark .closeBrace])
  | .array items => .mark .openBracket :: (items.tokens.tail ++ [.mark .closeBracket])

/-- The tokens of properties, each with a comma in front of it. -/
def Properties.tokens : Properties → List Token
  | .nil => []
  | .rest name => [.mark .comma, .mark .spread, name.token]
  | .shorthand name more => .mark .comma :: name.token :: more.tokens
  | .keyed key pattern more =>
    .mark .comma :: .key key :: .mark .colon :: (pattern.tokens ++ more.tokens)

/-- The tokens of items, each with a comma in front of it. -/
def Items.tokens : Items → List Token
  | .nil => []
  | .rest pattern => .mark .comma :: .mark .spread :: pattern.tokens
  | .cons pattern more => .mark .comma :: (pattern.tokens ++ more.tokens)

end

/-- The tokens of patterns with commas between them. -/
def listed (patterns : List Pattern) : List Token :=
  (patterns.flatMap fun pattern => .mark .comma :: pattern.tokens).tail

/-! ### Characters -/

theorem isNameContinue_of_isNameStart {c : Char} (h : isNameStart c = true) :
    isNameContinue c = true := by
  by_cases hlt : c.toNat < 128
  · have hall : isNameStart c = true → isNameContinue c = true :=
      of_ascii hlt (by decide +kernel)
    exact hall h
  · rw [isNameContinue, if_neg hlt, h, Bool.true_or]

theorem of_isDigit {c : Char} (h : c.isDigit = true) :
    isNameStart c = false ∧ isNameContinue c = true := by
  have hlt : c.toNat < 128 := Lexer.lt_of_isAlphanum (Bool.or_eq_true_iff.2 (.inr h))
  have hall : c.isDigit = true → isNameStart c = false ∧ isNameContinue c = true :=
    of_ascii hlt (by decide +kernel)
  exact hall h

/-- The characters between lexemes are blanks, the mark of the byte order apart. -/
theorem isBlank_of_isSpace {c : Char} (h : Script.isSpace c = true) :
    isBlank c = true ∨ c.toNat = 0xFEFF := by
  simp only [Script.isSpace, Script.isLineEnd, Bool.or_eq_true, beq_iff_eq, Bool.and_eq_true,
    decide_eq_true_eq] at h
  rcases h with (((((((rfl | rfl) | h) | h) | h) | h) | h) | ⟨hlt, h⟩)
  · decide
  · decide
  · rcases h with ((rfl | rfl) | h) | h
    · decide
    · decide
    all_goals simp [isBlank, h]
  · simp [isBlank, h]
  · simp [isBlank, h]
  · simp [isBlank, h]
  · exact .inr h
  · exact .inl (isBlank_of_category h hlt)

/-- The first characters that a token can have. -/
def Token.startsWith : Token → Char → Bool
  | .key (.name _), c => isNameStart c
  | .key (.string _), c => c == '"' || c == '\''
  | .key (.number _), c => c.isDigit
  | .mark m, c => m.text.head? == some c

theorem Token.exists_text_eq (token : Token) :
    ∃ c cs, token.text = c :: cs ∧ token.startsWith c = true := by
  rcases token with (⟨chars, hname⟩ | ⟨quote, body, hquote, -⟩ | ⟨digits, hne, hdigits⟩) | m
  · rcases chars with _ | ⟨c, cs⟩
    · cases hname
    · exact ⟨c, cs, rfl, (Bool.and_eq_true_iff.1 hname).1⟩
  · exact ⟨quote, body ++ [quote], rfl, by simpa [startsWith]⟩
  · rcases digits with _ | ⟨c, cs⟩
    · exact absurd rfl hne
    · exact ⟨c, cs, rfl, (Bool.and_eq_true_iff.1 hdigits).1⟩
  · cases m <;> exact ⟨_, _, rfl, rfl⟩

/-! ### Texts of tokens -/

/-- Whether a text is one of some tokens with blanks between them. -/
def isSpaced : List Token → List Char → Bool
  | [], text => text.all Script.isSpace
  | token :: tokens, text =>
    match Script.dropText token.text (text.dropWhile Script.isSpace) with
    | some rest => !(token.isWord && Script.continuesName rest) && isSpaced tokens rest
    | none => false

theorem dropText_eq_some {front text rest : List Char} :
    Script.dropText front text = some rest ↔ text = front ++ rest := by
  induction front generalizing text with
  | nil => simp [Script.dropText, eq_comm]
  | cons c front ih =>
    cases text with
    | nil => simp [Script.dropText]
    | cons d text =>
      rw [Script.dropText, List.cons_append, List.cons.injEq, ← ih]
      by_cases h : c = d
      · simp [h]
      · simp [h, Ne.symm h]

theorem isSpaced_cons {token : Token} {tokens : List Token} {text : List Char} :
    isSpaced (token :: tokens) text = true ↔
      ∃ rest, text.dropWhile Script.isSpace = token.text ++ rest ∧
        (token.isWord = true → Script.continuesName rest = false) ∧
        isSpaced tokens rest = true := by
  simp only [← dropText_eq_some]
  rw [isSpaced]
  cases Script.dropText token.text (text.dropWhile Script.isSpace) with
  | none => simp
  | some rest =>
    simp only [Bool.and_eq_true, Bool.not_eq_true', Bool.and_eq_false_imp, Option.some.injEq,
      exists_eq_left']

end PugLint.Binding
