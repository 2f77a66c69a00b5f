import PugLint.Proofs.Token.Scanning

/-!
# Moves of the reader

The reader as a machine that knows neither places nor how many turns are left. It stands at a
stage, in the head of an element or at the end of a line, with the widths of the levels that
are open; a move takes a piece of the text and gives the tokens over it. What a move
needs to see of the text behind the piece is part of its conditions.

* `Lexer.Move`, `Lexer.Path`: one piece, and pieces one behind the other;
* `Lexer.Goes`: a path between two cursors;
* `Lexer.Goes.endsLine`: where a stage is one at the end of a line, the line ends.
-/

namespace PugLint

namespace Lexer

/-! ### Stages and pieces -/

/-- Where the reading of a template stands. -/
inductive Stage where
  /-- In front of the text. -/
  | start
  /-- In front of the content of a line. -/
  | content
  /-- In the head of an element, which may have a name, a class or an id already. -/
  | head (started : Bool)
  /-- In a list of attributes. -/
  | list
  /-- At the end of a line, behind which a block of raw text may follow. -/
  | lineEnd (opensBlock : Bool)
  /-- In front of a line of raw text, in a block with a given indentation. -/
  | rawLine (base : Nat)
  /-- At the end of a line of raw text. -/
  | rawEnd (base : Nat)
  /-- Behind the end of the template. -/
  | done
  deriving DecidableEq, Repr

/-- A stage, and the widths of the open levels, the deepest first. -/
structure State where
  /-- Where the reading stands. -/
  stage : Stage
  /-- The widths of the open levels. -/
  levels : List Nat
  deriving DecidableEq, Repr

/-- A piece of the text that is taken at once. All of its tokens stand over the same
    text. -/
structure Piece where
  /-- What is passed over in front of the tokens. -/
  skipped : List Char
  /-- The tokens. -/
  kinds : List TokenKind
  /-- What the tokens stand over. -/
  written : List Char
  /-- What is passed over behind the tokens. -/
  behind : List Char
  deriving DecidableEq, Repr

namespace Piece

/-- The text of a piece. -/
def text (piece : Piece) : List Char :=
  piece.skipped ++ (piece.written ++ piece.behind)

/-- The tokens of a piece that starts at a place. -/
def tokens (piece : Piece) (place : Position) : List Token :=
  piece.kinds.map fun kind =>
    ⟨kind, place.after piece.skipped, (place.after piece.skipped).after piece.written⟩

/-- Text that no token stands over. -/
def blank (skipped : List Char) : Piece :=
  ⟨skipped, [], [], []⟩

/-- A token and its text. -/
def token (kind : TokenKind) (written : List Char) : Piece :=
  ⟨[], [kind], written, []⟩

@[simp] theorem text_blank (skipped : List Char) : (blank skipped).text = skipped :=
  List.append_nil skipped

@[simp] theorem tokens_blank (skipped : List Char) (place : Position) :
    (blank skipped).tokens place = [] :=
  rfl

@[simp] theorem text_token (kind : TokenKind) (written : List Char) :
    (token kind written).text = written :=
  List.append_nil written

@[simp] theorem tokens_token (kind : TokenKind) (written : List Char) (place : Position) :
    (token kind written).tokens place = [⟨kind, place, place.after written⟩] :=
  rfl

end Piece

/-- The text of pieces that stand one behind the other. -/
def textOf (pieces : List Piece) : List Char :=
  pieces.flatMap Piece.text

/-- The tokens of pieces that stand one behind the other from a place on. -/
def tokensFrom (place : Position) : List Piece → List Token
  | [] => []
  | piece :: pieces => piece.tokens place ++ tokensFrom (place.after piece.text) pieces

@[simp] theorem textOf_nil : textOf [] = [] := rfl

@[simp] theorem textOf_cons (piece : Piece) (pieces : List Piece) :
    textOf (piece :: pieces) = piece.text ++ textOf pieces :=
  List.flatMap_cons ..

@[simp] theorem textOf_append (pieces others : List Piece) :
    textOf (pieces ++ others) = textOf pieces ++ textOf others :=
  List.flatMap_append ..

theorem tokensFrom_append (place : Position) (pieces others : List Piece) :
    tokensFrom place (pieces ++ others) =
      tokensFrom place pieces ++ tokensFrom (place.after (textOf pieces)) others := by
  induction pieces generalizing place with
  | nil => rfl
  | cons piece pieces ih =>
    rw [List.cons_append, tokensFrom, tokensFrom, ih, List.append_assoc, textOf_cons,
      Position.after_append]

theorem map_kind_tokensFrom (place : Position) (pieces : List Piece) :
    (tokensFrom place pieces).map Token.kind = pieces.flatMap Piece.kinds := by
  induction pieces generalizing place with
  | nil => rfl
  | cons piece pieces ih =>
    rw [tokensFrom, List.map_append, ih, List.flatMap_cons, Piece.tokens, List.map_map]
    exact congrArg (· ++ _) (List.map_id' piece.kinds)

/-! ### Lines -/

/-- Lines that are passed over: blanks and a line break, any number of times. -/
inductive SkippedLines : List Char → Prop where
  | nil : SkippedLines []
  | cons {blanks ending more : List Char} (hblanks : ∀ c ∈ blanks, isInlineBlank c = true)
      (hending : ending = ['\n'] ∨ ending = ['\r', '\n']) (hmore : SkippedLines more) :
      SkippedLines (blanks ++ (ending ++ more))

/-- The content of a line starts here: neither a blank nor the end of the line. -/
def Marked (text : List Char) : Prop :=
  isLineEnd text = false ∧ ∀ c ∈ text.head?, isInlineBlank c = false

/-- The next line with content, or the last line: the lines in front of it, its indentation
    and what stands behind that. -/
structure Ahead (lines indentation content : List Char) : Prop where
  /-- The lines in front. -/
  lines : SkippedLines lines
  /-- The indentation. -/
  blank : ∀ c ∈ indentation, isInlineBlank c = true
  /-- The content. -/
  marked : content = [] ∨ Marked content

/-- A text that is a line, and what stands behind it. -/
def IsLine (line rest : List Char) : Prop :=
  splitLine (line ++ rest) = (line, rest)

theorem isLine_splitLine {text line rest : List Char} (h : splitLine text = (line, rest)) :
    IsLine line rest ∧ text = line ++ rest ∧ isLineEnd rest = true := by
  have happend := splitLine_append text
  have hend := isLineEnd_splitLine text
  rw [h] at happend hend
  dsimp only at happend hend
  subst happend
  exact ⟨h, rfl, hend⟩

theorem IsLine.isLineEnd {line rest : List Char} (h : IsLine line rest) :
    Lexer.isLineEnd rest = true :=
  (isLine_splitLine h).2.2

/-- Code whose value is shown. -/
inductive ShownCode : List Char → TokenKind → Prop where
  | escaped {cs : List Char} :
      ShownCode ('=' :: cs) (.code (String.ofList (Text.trimLeft cs)) true)
  | raw {cs : List Char} :
      ShownCode ('!' :: '=' :: cs) (.code (String.ofList (Text.trimLeft cs)) true)

/-- A line that is one token, and whether a block of raw text may follow. -/
inductive WholeLine : List Char → TokenKind → Bool → Prop where
  | html {cs : List Char} : WholeLine ('<' :: cs) (.html (String.ofList ('<' :: cs))) false
  | hiddenComment {cs : List Char} :
      WholeLine ('/' :: '/' :: '-' :: cs) (.comment (String.ofList cs) false) true
  | comment {cs : List Char} (h : cs.head? ≠ some '-') :
      WholeLine ('/' :: '/' :: cs) (.comment (String.ofList cs) true) true
  | code {cs : List Char} :
      WholeLine ('-' :: cs) (.code (String.ofList (Text.trimLeft cs)) false)
        (Text.trim (Text.trimLeft cs)).isEmpty
  | shownCode {line : List Char} {kind : TokenKind} (h : ShownCode line kind) :
      WholeLine line kind false
  | keyword {line : List Char} {kind : TokenKind} (h : keywordLine? line = some kind) :
      WholeLine line kind false

/-- A keyword line is a document type or a control line. -/
theorem eq_of_keywordLine? {line : List Char} {kind : TokenKind}
    (h : keywordLine? line = some kind) :
    (∃ value, kind = .doctype value) ∨
      ∃ keyword expression, kind = .control keyword expression := by
  rw [keywordLine?] at h
  split at h
  · dsimp only at h
    split at h
    · cases h
      exact .inl ⟨_, rfl⟩
    · obtain ⟨keyword, _, rfl⟩ := Option.map_eq_some_iff.1 h
      refine .inr ?_
      split
      · split <;> exact ⟨_, _, rfl⟩
      · exact ⟨_, _, rfl⟩
  · cases h

/-- What holds of every kind of token that a whole line may be. -/
@[elab_as_elim]
theorem WholeLine.of_kind {p : TokenKind → Prop} {line : List Char} {kind : TokenKind}
    {opensBlock : Bool} (h : WholeLine line kind opensBlock) (html : ∀ value, p (.html value))
    (comment : ∀ value buffered, p (.comment value buffered))
    (code : ∀ value buffered, p (.code value buffered)) (doctype : ∀ value, p (.doctype value))
    (control : ∀ keyword expression, p (.control keyword expression)) : p kind := by
  cases h with
  | html => exact html _
  | hiddenComment | comment => exact comment _ _
  | code => exact code _ _
  | shownCode h => cases h <;> exact code _ _
  | keyword h =>
    rcases eq_of_keywordLine? h with ⟨value, rfl⟩ | ⟨keyword, expression, rfl⟩
    · exact doctype _
    · exact control _ _

/-- The content of a line that starts with the head of an element. -/
structure StartsElement (text : List Char) : Prop where
  /-- There is content. -/
  ne_nil : text ≠ []
  /-- No marker of another kind of line. -/
  head : ∀ c ∈ text.head?, c ∉ ['|', '<', '-', '=', '+']
  /-- No comment. -/
  comment : ¬['/', '/'] <+: text
  /-- No code. -/
  code : ¬['!', '='] <+: text
  /-- No keyword. -/
  word : keywordLine? (splitLine text).1 = none

/-- The tokens of the indentation of a line with a given width, and the levels that are
    open behind them. -/
inductive Indents : List Nat → Nat → List TokenKind → List Nat → Prop where
  | deeper {levels : List Nat} {width : Nat} (h : levels.headD 0 < width) :
      Indents levels width [.indent width] (width :: levels)
  | same {levels : List Nat} {width : Nat} (h : width = levels.headD 0) :
      Indents levels width [.newline] levels
  | outer {closed levels : List Nat} {width : Nat} (hne : closed ≠ [])
      (hwidth : width = levels.headD 0) (h : ∀ level ∈ closed, width < level) :
      Indents (closed ++ levels) width (List.replicate closed.length .outdent) levels

/-! ### Moves -/

/-- The token of a class or an id, by its marker. -/
inductive LiteralMarker : Char → (String → TokenKind) → Prop where
  | className : LiteralMarker '.' .classLiteral
  | id : LiteralMarker '#' .idLiteral

/-- An attribute is read from the start of a text, whatever its place. -/
def ReadsAttribute (kind : TokenKind) (written rest : List Char) : Prop :=
  ∀ place : Position, readAttribute ⟨place, written ++ rest⟩ =
    .ok (⟨kind, place, place.after written⟩, ⟨place.after written, rest⟩)

/-- A group in parentheses, whatever its place and whatever stands behind it. -/
def IsGroup (group : List Char) : Prop :=
  ∀ (start place : Position) (rest : List Char),
    scanGroup start 1 .outside place (group ++ rest) = .ok (group, rest)

/-- A piece that may be taken at a state with a text behind it, and the state it leads
    to. -/
inductive Move : State → Piece → List Char → State → Prop where
  /-- The first line starts behind a byte order mark and blanks. -/
  | start {skipped rest : List Char} (h : (firstContent (skipped ++ rest)).rest = rest) :
      Move ⟨.start, []⟩ (.blank skipped) rest
        ⟨if isLineEnd rest then .lineEnd false else .content, []⟩
  /-- Text behind a bar, and a blank if there is one. -/
  | bar {levels : List Nat} {bar line rest : List Char}
      (hbar : bar = ['|', ' '] ∨ bar = ['|'] ∧ line.head? ≠ some ' ') (hline : IsLine line rest) :
      Move ⟨.content, levels⟩ ⟨bar, [.text (String.ofList line)], line, []⟩ rest
        ⟨.lineEnd false, levels⟩
  /-- A line that is one token. -/
  | whole {levels : List Nat} {line rest : List Char} {kind : TokenKind} {opensBlock : Bool}
      (h : WholeLine line kind opensBlock) (hline : IsLine line rest) :
      Move ⟨.content, levels⟩ (.token kind line) rest ⟨.lineEnd opensBlock, levels⟩
  /-- The use of a mixin. -/
  | call {levels : List Nat} {name rest : List Char} (hne : name ≠ [])
      (hname : ∀ c ∈ name, isLiteralChar c = true)
      (hrest : ∀ c ∈ rest.head?, isLiteralChar c = false) :
      Move ⟨.content, levels⟩ (.token (.call (String.ofList name)) ('+' :: name)) rest
        ⟨.head true, levels⟩
  /-- A line that starts with the head of an element. -/
  | element {levels : List Nat} {text : List Char} (h : StartsElement text) :
      Move ⟨.content, levels⟩ (.blank []) text ⟨.head false, levels⟩
  /-- The head ends with its line. -/
  | ended {levels : List Nat} {started : Bool} {rest : List Char}
      (h : isLineEnd rest = true) :
      Move ⟨.head started, levels⟩ (.blank []) rest ⟨.lineEnd false, levels⟩
  /-- The name of an element. -/
  | tag {levels : List Nat} {c : Char} {name rest : List Char}
      (hc : (c.isAlphanum || c == '_') = true)
      (h : scanTag (c :: name ++ rest) = (c :: name, rest)) :
      Move ⟨.head false, levels⟩ (.token (.tag (String.ofList (c :: name))) (c :: name)) rest
        ⟨.head true, levels⟩
  /-- A class or an id. -/
  | literal {levels : List Nat} {started : Bool} {c : Char} {kind : String → TokenKind}
      {name rest : List Char} (hc : LiteralMarker c kind) (hne : name ≠ [])
      (hname : ∀ c ∈ name, isLiteralChar c = true)
      (hrest : ∀ c ∈ rest.head?, isLiteralChar c = false) :
      Move ⟨.head started, levels⟩ (.token (kind (String.ofList name)) (c :: name)) rest
        ⟨.head true, levels⟩
  /-- A dot in front of a block of raw text. -/
  | dot {levels : List Nat} {started : Bool} {blanks rest : List Char}
      (hblanks : ∀ c ∈ blanks, isInlineBlank c = true) (hrest : isLineEnd rest = true) :
      Move ⟨.head started, levels⟩ ⟨[], [.dot], ['.'], blanks⟩ rest ⟨.lineEnd true, levels⟩
  /-- A list of attributes. -/
  | opens {levels : List Nat} {rest : List Char} :
      Move ⟨.head true, levels⟩ (.token .startAttributes ['(']) rest ⟨.list, levels⟩
  /-- A spread of attributes. -/
  | spread {levels : List Nat} {group rest : List Char} (h : IsGroup group) :
      Move ⟨.head true, levels⟩
        (.token (.andAttributes (String.ofList group.dropLast)) ("&attributes(".toList ++ group))
        rest ⟨.head true, levels⟩
  /-- A nested element behind a colon. -/
  | colon {levels : List Nat} {blanks rest : List Char} (hne : blanks ≠ [])
      (hblanks : ∀ c ∈ blanks, isInlineBlank c = true)
      (hrest : ∀ c ∈ rest.head?, isInlineBlank c = false) :
      Move ⟨.head true, levels⟩ ⟨[], [.colon], [':'], blanks⟩ rest ⟨.head false, levels⟩
  /-- The slash that ends an element. -/
  | slash {levels : List Nat} {rest : List Char} (h : isLineEnd rest = true) :
      Move ⟨.head true, levels⟩ (.token .slash ['/']) rest ⟨.head true, levels⟩
  /-- Code behind a head. -/
  | code {levels : List Nat} {line rest : List Char} {kind : TokenKind}
      (h : ShownCode line kind) (hline : IsLine line rest) :
      Move ⟨.head true, levels⟩ (.token kind line) rest ⟨.lineEnd false, levels⟩
  /-- Blanks behind a head. -/
  | trailing {levels : List Nat} {c : Char} {line rest : List Char}
      (hc : isInlineBlank c = true) (hline : IsLine line rest)
      (h : (Text.trim line).isEmpty = true) :
      Move ⟨.head true, levels⟩ (.blank (c :: line)) rest ⟨.lineEnd false, levels⟩
  /-- Text behind a head. -/
  | text {levels : List Nat} {c : Char} {line rest : List Char}
      (hc : isInlineBlank c = true) (hline : IsLine line rest)
      (h : (Text.trim line).isEmpty = false) :
      Move ⟨.head true, levels⟩ ⟨[c], [.text (String.ofList line)], line, []⟩ rest
        ⟨.lineEnd false, levels⟩
  /-- Text that starts with an interpolation. -/
  | interpolation {levels : List Nat} {cs rest : List Char}
      (h : cs.head?.any isLiteralChar = false) (hline : IsLine ('#' :: cs) rest) :
      Move ⟨.head false, levels⟩ (.token (.text (String.ofList ('#' :: cs))) ('#' :: cs)) rest
        ⟨.lineEnd false, levels⟩
  /-- An attribute of a list that does not end with the text. -/
  | listed {levels : List Nat} {separators written rest : List Char} {kind : TokenKind}
      (hseparators : ∀ c ∈ separators, isSeparator c = true)
      (hwritten : ∀ c ∈ (written ++ rest).head?, isSeparator c = false ∧ c ≠ ')')
      (h : ReadsAttribute kind written rest) (hrest : rest ≠ []) :
      Move ⟨.list, levels⟩ ⟨separators, [kind], written, []⟩ rest ⟨.list, levels⟩
  /-- The end of a list. -/
  | closes {levels : List Nat} {separators rest : List Char}
      (hseparators : ∀ c ∈ separators, isSeparator c = true) :
      Move ⟨.list, levels⟩ ⟨separators, [.endAttributes], [')'], []⟩ rest ⟨.head true, levels⟩
  /-- The next line. -/
  | next {levels levels' : List Nat} {opensBlock : Bool} {lines indentation content : List Char}
      {kinds : List TokenKind}
      (h : Ahead lines indentation content) (hne : lines ≠ []) (hcontent : content ≠ [])
      (hdeeper : opensBlock = true → indentation.length ≤ levels.headD 0)
      (hindents : Indents levels indentation.length kinds levels') :
      Move ⟨.lineEnd opensBlock, levels⟩ ⟨lines, kinds, indentation, []⟩ content
        ⟨.content, levels'⟩
  /-- The first line of a block of raw text. -/
  | raw {levels : List Nat} {lines indentation content : List Char}
      (h : Ahead lines indentation content) (hne : lines ≠ []) (hcontent : content ≠ [])
      (hdeeper : levels.headD 0 < indentation.length) :
      Move ⟨.lineEnd true, levels⟩ ⟨lines ++ indentation, [.startRawText], [], []⟩ content
        ⟨.rawLine indentation.length, levels⟩
  /-- The end of the template, behind which nothing is left. -/
  | finish {levels : List Nat} {opensBlock : Bool} {lines indentation : List Char}
      (h : Ahead lines indentation [])
      (hne : lines = [] → indentation = []) :
      Move ⟨.lineEnd opensBlock, levels⟩
        ⟨lines ++ indentation, List.replicate levels.length .outdent ++ [.eos], [], []⟩ []
        ⟨.done, []⟩
  /-- A line of raw text. -/
  | rawText {levels : List Nat} {base : Nat} {line rest : List Char} (hline : IsLine line rest) :
      Move ⟨.rawLine base, levels⟩ (.token (.text (String.ofList line)) line) rest
        ⟨.rawEnd base, levels⟩
  /-- The next line of raw text. Of its indentation, no more than that of the first line is
      left out of the text. -/
  | rawNext {levels : List Nat} {base : Nat} {lines indentation content : List Char}
      (h : Ahead lines indentation content) (hne : lines ≠ []) (hcontent : content ≠ [])
      (hdeeper : levels.headD 0 < indentation.length) :
      Move ⟨.rawEnd base, levels⟩
        ⟨lines, [.newline], indentation.take (min indentation.length base), []⟩
        (indentation.drop (min indentation.length base) ++ content) ⟨.rawLine base, levels⟩
  /-- The end of a block of raw text. -/
  | rawClose {levels : List Nat} {base : Nat} {lines indentation content : List Char}
      (h : Ahead lines indentation content)
      (hdeeper : content = [] ∨ indentation.length ≤ levels.headD 0) :
      Move ⟨.rawEnd base, levels⟩ (.token .endRawText []) (lines ++ (indentation ++ content))
        ⟨.lineEnd false, levels⟩

/-- Pieces that may be taken one behind the other, with a text behind them. -/
inductive Path : State → List Piece → List Char → State → Prop where
  | nil {s : State} {rest : List Char} : Path s [] rest s
  | cons {s t u : State} {piece : Piece} {pieces : List Piece} {rest : List Char}
      (h : Move s piece (textOf pieces ++ rest) t) (hs : Path t pieces rest u) :
      Path s (piece :: pieces) rest u

theorem Path.append {s t u : State} {pieces others : List Piece} {rest : List Char}
    (h : Path s pieces (textOf others ++ rest) t) (h' : Path t others rest u) :
    Path s (pieces ++ others) rest u := by
  generalize hbehind : textOf others ++ rest = behind at h
  induction h with
  | nil => exact h'
  | cons hmove _ ih =>
    subst hbehind
    rw [List.cons_append]
    refine .cons ?_ (ih h' rfl)
    rwa [textOf_append, List.append_assoc]

/-! ### Ends of lines -/

/-- A stage at the end of a line. -/
def Stage.EndsLine : Stage → Prop
  | .lineEnd _ | .rawEnd _ => True
  | _ => False

/-- A move to the end of a line takes what is left of the line. -/
theorem Move.endsLine {s t : State} {piece : Piece} {rest : List Char} (h : Move s piece rest t)
    (hs : s.stage.EndsLine → isLineEnd (piece.text ++ rest) = true)
    (ht : t.stage.EndsLine) : isLineEnd rest = true := by
  cases h with
  | start =>
    cases hend : isLineEnd rest with
    | true => rfl
    | false => simp [hend, Stage.EndsLine] at ht
  | bar _ hline | whole _ hline | code _ hline | trailing _ hline | text _ hline
  | interpolation _ hline | rawText hline => exact hline.isLineEnd
  | ended h => exact h
  | dot _ hrest => exact hrest
  | rawClose => exact hs trivial
  | call | element | tag | literal | opens | spread | colon | slash | listed | closes | next | raw
  | finish | rawNext => cases ht

theorem Path.endsLine {s t : State} {pieces : List Piece} {rest : List Char}
    (h : Path s pieces rest t)
    (hs : s.stage.EndsLine → isLineEnd (textOf pieces ++ rest) = true)
    (ht : t.stage.EndsLine) : isLineEnd rest = true := by
  induction h with
  | nil => exact hs ht
  | cons hmove _ ih =>
    rw [textOf_cons, List.append_assoc] at hs
    exact ih (hmove.endsLine hs) ht

/-! ### Paths between cursors -/

/-- A path leads from a cursor to another one and gives the tokens. -/
def Goes (s : State) (start : Cursor) (tokens : List Token) (t : State) (stop : Cursor) : Prop :=
  ∃ pieces, Path s pieces stop.rest t ∧ start.rest = textOf pieces ++ stop.rest ∧
    stop.place = start.place.after (textOf pieces) ∧ tokens = tokensFrom start.place pieces

namespace Goes

variable {s t u : State} {start middle stop : Cursor} {tokens others : List Token}

theorem refl : Goes s start [] s start :=
  ⟨[], .nil, rfl, rfl, rfl⟩

theorem trans (h : Goes s start tokens t middle) (h' : Goes t middle others u stop) :
    Goes s start (tokens ++ others) u stop := by
  obtain ⟨pieces, hpath, hrest, hplace, rfl⟩ := h
  obtain ⟨more, hpath', hrest', hplace', rfl⟩ := h'
  refine ⟨pieces ++ more, .append (hrest' ▸ hpath) hpath', ?_, ?_, ?_⟩
  · rw [hrest, hrest', textOf_append, List.append_assoc]
  · rw [hplace', hplace, textOf_append, Position.after_append]
  · rw [tokensFrom_append, hplace]

theorem length_le (h : Goes s start tokens t stop) : stop.rest.length ≤ start.rest.length := by
  obtain ⟨pieces, _, hrest, _⟩ := h
  rw [hrest, List.length_append]
  exact Nat.le_add_left _ _

theorem endsLine (h : Goes s start tokens t stop)
    (hs : s.stage.EndsLine → isLineEnd start.rest = true) (ht : t.stage.EndsLine) :
    isLineEnd stop.rest = true := by
  obtain ⟨pieces, hpath, hrest, _⟩ := h
  exact hpath.endsLine (hrest ▸ hs) ht

/-- One piece. -/
theorem move {piece : Piece} {rest : List Char} (h : Move s piece rest t)
    (hrest : start.rest = piece.text ++ rest) (htokens : tokens = piece.tokens start.place)
    (hstop : stop = start.advance piece.text rest) : Goes s start tokens t stop := by
  subst htokens hstop
  refine ⟨[piece], .cons h .nil, ?_, ?_, ?_⟩
  · rw [textOf_cons, textOf_nil, List.append_nil]
    exact hrest
  · rw [textOf_cons, textOf_nil, List.append_nil]
    rfl
  · rw [tokensFrom, tokensFrom, List.append_nil]

/-- A token over a text. -/
theorem token {kind : TokenKind} {written rest : List Char}
    (h : Move s (.token kind written) rest t) (hrest : start.rest = written ++ rest) :
    Goes s start [start.token kind written] t (start.advance written rest) :=
  .move h (by rwa [Piece.text_token]) rfl (by rw [Piece.text_token])

/-- No token. -/
theorem blank {skipped rest : List Char} (h : Move s (.blank skipped) rest t)
    (hrest : start.rest = skipped ++ rest) :
    Goes s start [] t (start.advance skipped rest) :=
  .move h (by rwa [Piece.text_blank]) rfl (by rw [Piece.text_blank])

/-- Nothing is taken. -/
theorem idle (h : Move s (.blank []) start.rest t) : Goes s start [] t start :=
  .blank h rfl

/-- A token behind a text that is passed over. -/
theorem skipToken {kind : TokenKind} {skipped written rest : List Char}
    (h : Move s ⟨skipped, [kind], written, []⟩ rest t)
    (hrest : start.rest = skipped ++ (written ++ rest)) :
    Goes s start [(start.advance skipped (written ++ rest)).token kind written] t
      ((start.advance skipped (written ++ rest)).advance written rest) :=
  .move h (by simp [Piece.text, hrest]) rfl
    (by simp [Piece.text, Cursor.advance, Position.after_append])

/-- A token in front of a text that is passed over. -/
theorem tokenSkip {kind : TokenKind} {written behind rest : List Char}
    (h : Move s ⟨[], [kind], written, behind⟩ rest t)
    (hrest : start.rest = written ++ (behind ++ rest)) :
    Goes s start [start.token kind written] t (start.advance (written ++ behind) rest) :=
  .move h (by simp [Piece.text, hrest]) rfl rfl

end Goes

end Lexer

end PugLint
