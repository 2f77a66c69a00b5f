import PugLint.Proofs.Token.Paths

/-!
# Lines with content

Which lines of a text have content can be told from the text and the tokens over it: those
that are not blank and do not begin inside of something that started on a line in front. The
reader tells it in its own way, as it stands in front of the content of such lines, and of no
others.

* `linesFrom`, `beginsInside`, `contentLines`: the lines with content, and their widths;
* `Lexer.Crosses`, `Lexer.Move.crosses`: what a move does to lines;
* `Lexer.Outlined`: a path, and the lines that it meets;
* `exists_outlined_tokenize`: the reader meets the lines with content.
-/

namespace PugLint

open Lexer

/-! ### Lines of a text -/

/-- The lines that start behind the line breaks of a text: their numbers, and the text from
    there on. The text itself starts on the line with a given number. -/
def linesFrom (number : Nat) : List Char → List (Nat × List Char)
  | [] => []
  | c :: cs =>
    if c == '\n' then (number + 1, cs) :: linesFrom (number + 1) cs else linesFrom number cs

/-- Whether a text starts with a line without content. -/
def isBlankLine (text : List Char) : Bool :=
  isLineEnd (text.dropWhile isInlineBlank)

/-- Whether the first token of a kind stands on a line or behind it. -/
def reaches (kind : TokenKind) (number : Nat) (tokens : List Token) : Bool :=
  (tokens.find? (·.kind = kind)).any fun token => number ≤ token.span.start.line

/-- Whether a line begins inside of a token, of a list of attributes or of a block of raw
    text. The first line of such a block belongs to it as a whole. -/
def beginsInside (number : Nat) : List Token → Bool
  | [] => false
  | token :: tokens =>
    (token.span.start.line < number && number ≤ token.span.stop.line) ||
      (token.kind = .startAttributes && token.span.start.line < number &&
        reaches .endAttributes number tokens) ||
      (token.kind = .startRawText && token.span.start.line ≤ number &&
        reaches .endRawText number tokens) ||
      beginsInside number tokens

/-- A line with content. -/
structure ContentLine where
  /-- The number of the line, from one. -/
  number : Nat
  /-- How many blanks it is indented by. -/
  width : Nat
  deriving DecidableEq, Repr

/-- A line from its number and the text from there on. -/
def ContentLine.ofText (line : Nat × List Char) : ContentLine :=
  ⟨line.1, (line.2.takeWhile isInlineBlank).length⟩

/-- The lines with content of a text with tokens over it. The first line starts behind its
    indentation, so that its width is zero. -/
def contentLines (text : List Char) (tokens : List Token) : List ContentLine :=
  (((1, (firstContent text).rest) :: linesFrom 1 text).filter fun line =>
    !isBlankLine line.2 && !beginsInside line.1 tokens).map .ofText

theorem linesFrom_append (number : Nat) (a b : List Char) :
    linesFrom number (a ++ b) = (linesFrom number a).map (fun line => (line.1, line.2 ++ b)) ++
      linesFrom (number + a.count '\n') b := by
  induction a generalizing number with
  | nil => rfl
  | cons c a ih =>
    rw [List.cons_append, linesFrom, linesFrom, List.count_cons]
    split
    · rw [ih, List.map_cons, List.cons_append, Nat.add_assoc, Nat.add_comm 1]
    · rw [ih, Nat.add_zero]

theorem linesFrom_of_not_mem {text : List Char} (h : '\n' ∉ text) (number : Nat) :
    linesFrom number text = [] := by
  induction text with
  | nil => rfl
  | cons c text ih =>
    obtain ⟨hc, htext⟩ := List.ne_and_not_mem_of_not_mem_cons h
    rw [linesFrom, if_neg (by simpa using hc.symm), ih htext]

theorem bounds_of_mem_linesFrom {number : Nat} {text : List Char} {line : Nat × List Char}
    (h : line ∈ linesFrom number text) :
    number < line.1 ∧ line.1 ≤ number + text.count '\n' := by
  induction text generalizing number with
  | nil => exact absurd h List.not_mem_nil
  | cons c text ih =>
    rw [List.count_cons]
    rw [linesFrom] at h
    split at h
    · rename_i hc
      rw [if_pos hc]
      rcases List.mem_cons.1 h with rfl | h
      · exact ⟨Nat.lt_succ_self _, by omega⟩
      · have := ih h
        omega
    · have := ih h
      omega

theorem newline_not_mem_of_blank {text : List Char} (h : ∀ c ∈ text, isInlineBlank c = true) :
    '\n' ∉ text := fun hmem => absurd (h _ hmem) (by decide)

/-- A text that starts with no blank. -/
theorem blanks_of_head? {text : List Char} (h : ∀ c ∈ text.head?, isInlineBlank c = false) :
    text.takeWhile isInlineBlank = [] ∧ text.dropWhile isInlineBlank = text := by
  cases text with
  | nil => exact ⟨rfl, rfl⟩
  | cons c text =>
    have hc : ¬isInlineBlank c = true := by
      rw [h c rfl]
      exact Bool.false_ne_true
    exact ⟨List.takeWhile_cons_of_neg hc, List.dropWhile_cons_of_neg hc⟩

namespace Lexer

/-- Lines that are passed over start with a line without content. -/
theorem SkippedLines.isBlankLine {lines : List Char} (h : SkippedLines lines) (hne : lines ≠ [])
    (rest : List Char) : isBlankLine (lines ++ rest) = true := by
  cases h with
  | nil => exact absurd rfl hne
  | @cons blanks ending more hblanks hending _ =>
    rw [PugLint.isBlankLine, List.append_assoc, List.append_assoc,
      List.dropWhile_append_of_pos hblanks]
    rcases hending with rfl | rfl <;> rfl

/-- Of the lines that start in lines that are passed over, all but the last are blank. -/
theorem SkippedLines.linesFrom {lines : List Char} (h : SkippedLines lines) (hne : lines ≠ [])
    (number : Nat) : ∃ blanks, PugLint.linesFrom number lines =
      blanks ++ [(number + lines.count '\n', [])] ∧
      ∀ line ∈ blanks, ∀ rest, PugLint.isBlankLine (line.2 ++ rest) = true := by
  induction h generalizing number with
  | nil => exact absurd rfl hne
  | @cons blanks ending more hblanks hending hmore ih =>
    have hfirst : PugLint.linesFrom number (blanks ++ (ending ++ more)) =
        (number + 1, more) :: PugLint.linesFrom (number + 1) more := by
      have hnone := newline_not_mem_of_blank hblanks
      rw [linesFrom_append, linesFrom_of_not_mem hnone, List.count_eq_zero.2 hnone]
      rcases hending with rfl | rfl <;> rfl
    have hcount : (blanks ++ (ending ++ more)).count '\n' = 1 + more.count '\n' := by
      rw [List.count_append, List.count_append,
        List.count_eq_zero.2 (newline_not_mem_of_blank hblanks), Nat.zero_add]
      rcases hending with rfl | rfl <;> rfl
    rw [hfirst, hcount, ← Nat.add_assoc]
    by_cases hmore' : more = []
    · subst hmore'
      exact ⟨[], rfl, List.forall_mem_nil _⟩
    · obtain ⟨others, hothers, hblank⟩ := ih hmore' (number + 1)
      refine ⟨(number + 1, more) :: others, by rw [hothers]; rfl, ?_⟩
      exact List.forall_mem_cons.2 ⟨hmore.isBlankLine hmore', hblank⟩

theorem Ahead.takeWhile_eq {lines indentation content : List Char}
    (h : Ahead lines indentation content) :
    (indentation ++ content).takeWhile isInlineBlank = indentation := by
  rw [List.takeWhile_append_of_pos h.blank]
  rcases h.marked with rfl | ⟨_, hhead⟩
  · rw [List.takeWhile_nil, List.append_nil]
  · rw [(blanks_of_head? hhead).1, List.append_nil]

theorem Ahead.isBlankLine_nil {lines indentation : List Char} (h : Ahead lines indentation []) :
    PugLint.isBlankLine (indentation ++ []) = true := by
  rw [PugLint.isBlankLine, List.dropWhile_append_of_pos h.blank]
  rfl

theorem Ahead.isBlankLine_eq_false {lines indentation content : List Char}
    (h : Ahead lines indentation content) (hne : content ≠ []) :
    PugLint.isBlankLine (indentation ++ content) = false := by
  obtain ⟨hend, hhead⟩ := h.marked.resolve_left hne
  rw [PugLint.isBlankLine, List.dropWhile_append_of_pos h.blank, (blanks_of_head? hhead).2, hend]

/-- Where lines are passed over, only the last line that starts there may have content. -/
theorem SkippedLines.filter_linesFrom {lines taken : List Char} (h : SkippedLines lines)
    (hne : lines ≠ []) (htaken : '\n' ∉ taken) (number : Nat) (rest : List Char)
    {p : Nat × List Char → Bool} (hp : ∀ line, PugLint.isBlankLine line.2 = true → p line = false) :
    ((PugLint.linesFrom number (lines ++ taken)).map fun line =>
        (line.1, line.2 ++ rest)).filter p =
      if p (number + lines.count '\n', taken ++ rest) then
        [(number + lines.count '\n', taken ++ rest)]
      else [] := by
  obtain ⟨blanks, hlines, hblank⟩ := h.linesFrom hne number
  have hnone : (blanks.map fun line => (line.1, line.2 ++ taken ++ rest)).filter p = [] := by
    rw [List.filter_eq_nil_iff]
    intro line hline
    obtain ⟨old, hold, rfl⟩ := List.mem_map.1 hline
    rw [hp _ (by rw [List.append_assoc]; exact hblank old hold _)]
    exact Bool.false_ne_true
  rw [linesFrom_append, linesFrom_of_not_mem htaken, List.append_nil, hlines, List.map_map,
    List.map_append, List.filter_append]
  exact (congrArg (· ++ _) hnone).trans (List.filter_cons ..)

end Lexer

/-! ### Lines of tokens -/

/-- The token that a stage waits for: the end of a list or of a block. -/
def Lexer.Stage.closer : Stage → Option TokenKind
  | .list => some .endAttributes
  | .rawLine _ | .rawEnd _ => some .endRawText
  | _ => none

/-- Whether a token starts or ends a list or a block. -/
def TokenKind.isMarker : TokenKind → Bool
  | .startAttributes | .endAttributes | .startRawText | .endRawText => true
  | _ => false

/-- Whether a line has content, where the reader waits for the end of a list or a block. -/
def hasContent (closer : Option TokenKind) (tokens : List Token) (line : Nat × List Char) :
    Bool :=
  !isBlankLine line.2 &&
    !(closer.any (reaches · line.1 tokens) || beginsInside line.1 tokens)

section Tokens

variable {kind : TokenKind} {number : Nat} {tokens others : List Token}

theorem reaches_cons_self {token : Token} :
    reaches token.kind number (token :: tokens) = decide (number ≤ token.span.start.line) := by
  simp [reaches]

theorem reaches_append_of_ne (h : ∀ token ∈ tokens, token.kind ≠ kind) :
    reaches kind number (tokens ++ others) = reaches kind number others := by
  have hnone : tokens.find? (·.kind = kind) = none := by
    rw [List.find?_eq_none]
    intro token htoken
    simpa using h token htoken
  rw [reaches, List.find?_append, hnone, Option.none_or, reaches]

theorem reaches_of_forall (hmem : ∃ token ∈ tokens, token.kind = kind)
    (h : ∀ token ∈ tokens, number ≤ token.span.start.line) :
    reaches kind number tokens = true := by
  obtain ⟨found, hfound⟩ : ∃ found, tokens.find? (·.kind = kind) = some found := by
    obtain ⟨token, htoken, hkind⟩ := hmem
    exact Option.isSome_iff_exists.1
      (List.find?_isSome.2 ⟨token, htoken, decide_eq_true hkind⟩)
  rw [reaches, hfound, Option.any_some, decide_eq_true_eq]
  exact h found (List.mem_of_find?_eq_some hfound)

theorem beginsInside_append_of_not_isMarker
    (hkind : ∀ token ∈ tokens, token.kind.isMarker = false)
    (hstop : ∀ token ∈ tokens, token.span.stop.line < number ∨ number ≤ token.span.start.line) :
    beginsInside number (tokens ++ others) = beginsInside number others := by
  induction tokens with
  | nil => rfl
  | cons token tokens ih =>
    obtain ⟨hkind, hkinds⟩ := List.forall_mem_cons.1 hkind
    obtain ⟨hstop, hstops⟩ := List.forall_mem_cons.1 hstop
    have hspan : (decide (token.span.start.line < number) &&
        decide (number ≤ token.span.stop.line)) = false := by
      rw [Bool.and_eq_false_iff, decide_eq_false_iff_not, decide_eq_false_iff_not]
      omega
    have hlist : token.kind ≠ .startAttributes := fun h => by rw [h] at hkind; cases hkind
    have hblock : token.kind ≠ .startRawText := fun h => by rw [h] at hkind; cases hkind
    rw [List.cons_append, beginsInside, hspan, decide_eq_false hlist, decide_eq_false hblock,
      ih hkinds hstops]
    rfl

/-- Behind a token, a line may begin inside of the list or the block that it starts. -/
theorem beginsInside_cons_of_lt {token : Token} (hstart : token.span.start.line < number)
    (hstop : token.span.stop.line < number) :
    beginsInside number (token :: tokens) =
      (token.kind = .startAttributes && reaches .endAttributes number tokens ||
        token.kind = .startRawText && reaches .endRawText number tokens ||
        beginsInside number tokens) := by
  simp [beginsInside, hstart, Nat.le_of_lt hstart, Nat.not_le.2 hstop]

/-- No line begins inside of tokens that start on it or behind it. -/
theorem beginsInside_eq_false (h : ∀ token ∈ tokens, number ≤ token.span.start.line)
    (hraw : ∀ token ∈ tokens, token.kind = .startRawText → number < token.span.start.line) :
    beginsInside number tokens = false := by
  induction tokens with
  | nil => rfl
  | cons token tokens ih =>
    obtain ⟨h, hs⟩ := List.forall_mem_cons.1 h
    obtain ⟨hraw, hraws⟩ := List.forall_mem_cons.1 hraw
    have hstart : decide (token.span.start.line < number) = false :=
      decide_eq_false (Nat.not_lt.2 h)
    have hblock : (decide (token.kind = .startRawText) &&
        decide (token.span.start.line ≤ number)) = false := by
      rw [Bool.and_eq_false_iff, decide_eq_false_iff_not, decide_eq_false_iff_not]
      by_cases hkind : token.kind = .startRawText
      · exact .inr (Nat.not_le.2 (hraw hkind))
      · exact .inl hkind
    rw [beginsInside, hstart, hblock, ih hs hraws, Bool.and_false]
    rfl

end Tokens

/-! ### Moves -/

namespace Lexer

theorem IsLine.newline_not_mem {line rest : List Char} (h : IsLine line rest) : '\n' ∉ line := by
  have := newline_not_mem_splitLine (line ++ rest)
  rwa [h] at this

theorem newline_not_mem_scanTag (cs : List Char) : '\n' ∉ (scanTag cs).1 := by
  intro h
  have hrun : '\n' ∈ cs.takeWhile isTagChar := List.mem_of_mem_take h
  exact absurd (List.mem_takeWhile_imp hrun) (by decide)

/-- What a move does to lines, to lists and to blocks. -/
inductive Crosses : State → Piece → List Char → State → Prop where
  /-- It stays on its line. -/
  | within {s t : State} {piece : Piece} {rest : List Char}
      (hkinds : ∀ kind ∈ piece.kinds, kind.isMarker = false) (htext : '\n' ∉ piece.text)
      (hcloser : s.stage.closer = t.stage.closer) (ht : t.stage ≠ .content) :
      Crosses s piece rest t
  /-- A token may go over lines. -/
  | spans {s t : State} {kind : TokenKind} {written rest : List Char}
      (hkind : kind.isMarker = false) (hs : s.stage.closer = none) (ht : t.stage.closer = none)
      (hcontent : t.stage ≠ .content) : Crosses s (.token kind written) rest t
  /-- A list starts. -/
  | opens {levels : List Nat} {rest : List Char} :
      Crosses ⟨.head true, levels⟩ (.token .startAttributes ['(']) rest ⟨.list, levels⟩
  /-- An attribute of a list. -/
  | listed {levels : List Nat} {separators written rest : List Char} {kind : TokenKind}
      (hkind : kind.isMarker = false) :
      Crosses ⟨.list, levels⟩ ⟨separators, [kind], written, []⟩ rest ⟨.list, levels⟩
  /-- A list ends. -/
  | closes {levels : List Nat} {separators rest : List Char} :
      Crosses ⟨.list, levels⟩ ⟨separators, [.endAttributes], [')'], []⟩ rest
        ⟨.head true, levels⟩
  /-- A line with content starts. -/
  | next {levels levels' : List Nat} {opensBlock : Bool} {lines indentation content : List Char}
      {kinds : List TokenKind} (h : Ahead lines indentation content) (hne : lines ≠ [])
      (hcontent : content ≠ []) (hindents : Indents levels indentation.length kinds levels') :
      Crosses ⟨.lineEnd opensBlock, levels⟩ ⟨lines, kinds, indentation, []⟩ content
        ⟨.content, levels'⟩
  /-- A block starts. -/
  | raw {levels : List Nat} {base : Nat} {lines indentation content : List Char}
      (h : Ahead lines indentation content) (hne : lines ≠ []) :
      Crosses ⟨.lineEnd true, levels⟩ ⟨lines ++ indentation, [.startRawText], [], []⟩ content
        ⟨.rawLine base, levels⟩
  /-- A further line of a block. -/
  | rawNext {levels : List Nat} {base : Nat} {lines taken left content rest : List Char}
      (h : Ahead lines (taken ++ left) content) (hne : lines ≠ [])
      (hrest : rest = left ++ content) :
      Crosses ⟨.rawEnd base, levels⟩ ⟨lines, [.newline], taken, []⟩ rest ⟨.rawLine base, levels⟩
  /-- A block ends. -/
  | rawClose {levels : List Nat} {base : Nat} {rest : List Char} :
      Crosses ⟨.rawEnd base, levels⟩ (.token .endRawText []) rest ⟨.lineEnd false, levels⟩
  /-- The template ends. -/
  | finish {levels : List Nat} {opensBlock : Bool} {lines indentation rest : List Char}
      (h : Ahead lines indentation []) (hne : lines = [] → indentation = []) (hrest : rest = []) :
      Crosses ⟨.lineEnd opensBlock, levels⟩
        ⟨lines ++ indentation, List.replicate levels.length .outdent ++ [.eos], [], []⟩ rest
        ⟨.done, []⟩

theorem WholeLine.isMarker_eq_false {line : List Char} {kind : TokenKind} {opensBlock : Bool}
    (h : WholeLine line kind opensBlock) : kind.isMarker = false :=
  h.of_kind (fun _ => rfl) (fun _ _ => rfl) (fun _ _ => rfl) (fun _ => rfl) fun _ _ => rfl

variable {s t : State} {piece : Piece} {rest : List Char}

theorem Move.crosses (h : Move s piece rest t) (hs : s.stage ≠ .start) :
    Crosses s piece rest t := by
  -- Most pieces stand within a line and mark neither a list nor a block.
  cases h with
  | start => exact absurd rfl hs
  | bar hbar hline =>
    refine .within (List.forall_mem_singleton.2 rfl) ?_ rfl (by simp)
    have := hline.newline_not_mem
    rcases hbar with rfl | ⟨rfl, _⟩ <;> simpa [Piece.text] using this
  | whole h hline =>
    refine .within (List.forall_mem_singleton.2 h.isMarker_eq_false) ?_ rfl (by simp)
    rw [Piece.text_token]
    exact hline.newline_not_mem
  | call _ hname =>
    refine .within (List.forall_mem_singleton.2 rfl) ?_ rfl (by simp)
    rw [Piece.text_token]
    intro hmem
    rcases List.mem_cons.1 hmem with hmem | hmem
    · cases hmem
    · exact absurd (hname _ hmem) (by decide)
  | element => exact .within (List.forall_mem_nil _) List.not_mem_nil rfl (by simp)
  | @ended _ started =>
    refine .within (List.forall_mem_nil _) List.not_mem_nil ?_ (by simp)
    cases started <;> rfl
  | @tag _ c name _ _ h =>
    refine .within (List.forall_mem_singleton.2 rfl) ?_ rfl (by simp)
    have hname := newline_not_mem_scanTag (c :: name ++ rest)
    rw [h] at hname
    rwa [Piece.text_token]
  | @literal _ started _ _ _ _ hc _ hname =>
    have hcloser : (Stage.head started).closer = none := by cases started <;> rfl
    refine .within ?_ ?_ hcloser (by simp)
    · cases hc <;> exact List.forall_mem_singleton.2 rfl
    · rw [Piece.text_token]
      intro hmem
      rcases List.mem_cons.1 hmem with rfl | hmem
      · cases hc
      · exact absurd (hname _ hmem) (by decide)
  | @dot _ started blanks _ hblanks =>
    have hcloser : (Stage.head started).closer = none := by cases started <;> rfl
    refine .within (List.forall_mem_singleton.2 rfl) ?_ hcloser (by simp)
    have := newline_not_mem_of_blank hblanks
    simpa [Piece.text] using this
  | opens => exact .opens
  | spread => exact .spans rfl rfl rfl (by simp)
  | colon _ hblanks =>
    refine .within (List.forall_mem_singleton.2 rfl) ?_ rfl (by simp)
    have := newline_not_mem_of_blank hblanks
    simpa [Piece.text] using this
  | slash => exact .within (List.forall_mem_singleton.2 rfl) (by decide) rfl (by simp)
  | code h hline =>
    refine .within (List.forall_mem_singleton.2 ?_) ?_ rfl (by simp)
    · cases h <;> rfl
    · rw [Piece.text_token]
      exact hline.newline_not_mem
  | @trailing _ c _ _ hc hline _ =>
    refine .within (List.forall_mem_nil _) ?_ rfl (by simp)
    rw [Piece.text_blank]
    refine List.not_mem_cons_of_ne_of_not_mem ?_ hline.newline_not_mem
    rintro rfl
    exact absurd hc (by decide)
  | @text _ c _ _ hc hline _ =>
    refine .within (List.forall_mem_singleton.2 rfl) ?_ rfl (by simp)
    rw [Piece.text, List.append_nil, List.singleton_append]
    refine List.not_mem_cons_of_ne_of_not_mem ?_ hline.newline_not_mem
    rintro rfl
    exact absurd hc (by decide)
  | interpolation _ hline =>
    refine .within (List.forall_mem_singleton.2 rfl) ?_ rfl (by simp)
    rw [Piece.text_token]
    exact hline.newline_not_mem
  | listed _ _ h =>
    obtain ⟨name, value, escaped, rfl⟩ := h.exists_eq
    exact .listed rfl
  | closes => exact .closes
  | next h hne hcontent _ hindents => exact .next h hne hcontent hindents
  | raw h hne => exact .raw h hne
  | finish h hne => exact .finish h hne rfl
  | rawText hline =>
    refine .within (List.forall_mem_singleton.2 rfl) ?_ rfl (by simp)
    rw [Piece.text_token]
    exact hline.newline_not_mem
  | rawNext h hne =>
    refine .rawNext ?_ hne rfl
    rwa [List.take_append_drop]
  | rawClose => exact .rawClose

theorem Move.ne_start (h : Move s piece rest t) : t.stage ≠ .start := by
  cases h with
  | start => dsimp only; split <;> nofun
  | _ => nofun

theorem Move.ne_done (h : Move s piece rest t) : s.stage ≠ .done := by
  cases h <;> nofun

/-! ### The lines of a path -/

theorem line_le_after (place : Position) (text : List Char) :
    place.line ≤ (place.after text).line := by
  rw [Position.line_after]
  exact Nat.le_add_right _ _

/-- The tokens of a piece stand on its lines. -/
theorem Piece.bounds_of_mem_tokens {place : Position} {token : Token}
    (h : token ∈ piece.tokens place) :
    token.kind ∈ piece.kinds ∧ place.line ≤ token.span.start.line ∧
      token.span.start.line ≤ token.span.stop.line ∧
      token.span.stop.line ≤ (place.after piece.text).line := by
  obtain ⟨kind, hkind, rfl⟩ := List.mem_map.1 h
  refine ⟨hkind, line_le_after _ _, line_le_after _ _, ?_⟩
  rw [Piece.text, Position.after_append, Position.after_append]
  exact line_le_after _ _

theorem Piece.exists_token {kind : TokenKind} (h : piece.kinds = [kind]) (place : Position) :
    ∃ token, piece.tokens place = [token] ∧ token.kind = kind ∧
      token.span.start = place.after piece.skipped ∧
      token.span.start.line ≤ token.span.stop.line ∧
      token.span.stop.line ≤ (place.after piece.text).line := by
  have htokens : piece.tokens place = [⟨kind, place.after piece.skipped,
      (place.after piece.skipped).after piece.written⟩] := by
    rw [Piece.tokens, h]
    rfl
  have hbounds := bounds_of_mem_tokens (htokens ▸ List.mem_singleton_self _)
  exact ⟨_, htokens, rfl, rfl, hbounds.2.2⟩

theorem line_le_of_mem_tokensFrom {place : Position} {pieces : List Piece} {token : Token}
    (h : token ∈ tokensFrom place pieces) : place.line ≤ token.span.start.line := by
  induction pieces generalizing place with
  | nil => exact absurd h List.not_mem_nil
  | cons piece pieces ih =>
    rcases List.mem_append.1 h with h | h
    · exact (Piece.bounds_of_mem_tokens h).2.1
    · exact Nat.le_trans (line_le_after _ _) (ih h)

theorem SkippedLines.newline_mem {lines : List Char} (h : SkippedLines lines) (hne : lines ≠ []) :
    '\n' ∈ lines := by
  cases h with
  | nil => exact absurd rfl hne
  | cons _ hending => rcases hending with rfl | rfl <;> simp

theorem Indents.isMarker_eq_false {levels levels' : List Nat} {width : Nat}
    {kinds : List TokenKind} (h : Indents levels width kinds levels') :
    ∀ kind ∈ kinds, kind.isMarker = false := by
  cases h with
  | deeper | same => exact List.forall_mem_singleton.2 rfl
  | outer => exact fun kind hkind => List.eq_of_mem_replicate hkind ▸ rfl

/-- The line that the reader meets, where it stands in front of content. -/
def State.meets (s : State) (place : Position) : List ContentLine :=
  if s.stage = .content then [⟨place.line, s.levels.headD 0⟩] else []

/-- A path to the end of the template, and the lines that it meets. -/
inductive Outlined : State → Position → List Piece → List ContentLine → Prop where
  | done {s : State} {place : Position} (hs : s.stage = .done) : Outlined s place [] []
  | move {s t : State} {place : Position} {piece : Piece} {pieces : List Piece}
      {lines : List ContentLine} (h : Move s piece (textOf pieces) t)
      (hs : Outlined t (place.after piece.text) pieces lines) :
      Outlined s place (piece :: pieces) (t.meets (place.after piece.text) ++ lines)

theorem Path.exists_outlined {pieces : List Piece} (h : Path s pieces rest t) (hrest : rest = [])
    (ht : t.stage = .done) (place : Position) : ∃ lines, Outlined s place pieces lines := by
  induction h generalizing place with
  | nil => exact ⟨[], .done ht⟩
  | @cons _ _ _ piece _ _ hmove _ ih =>
    rw [hrest, List.append_nil] at hmove
    obtain ⟨lines, hlines⟩ := ih hrest ht (place.after piece.text)
    exact ⟨_, .move hmove hlines⟩

namespace Outlined

variable {place : Position} {pieces : List Piece} {lines : List ContentLine}

/-- What a stage waits for is among the tokens. -/
theorem exists_closer (h : Outlined s place pieces lines) (hs : s.stage ≠ .start)
    {kind : TokenKind} (hkind : s.stage.closer = some kind) :
    ∃ token ∈ tokensFrom place pieces, token.kind = kind := by
  induction h with
  | done hdone =>
    rw [hdone] at hkind
    cases hkind
  | @move _ t place piece pieces _ hmove _ ih =>
    have hlater (hkind : t.stage.closer = some kind) :
        ∃ token ∈ tokensFrom place (piece :: pieces), token.kind = kind := by
      obtain ⟨token, htoken, hkind⟩ := ih hmove.ne_start hkind
      exact ⟨token, List.mem_append_right _ htoken, hkind⟩
    cases hmove.crosses hs with
    | within _ _ hcloser => exact hlater (hcloser ▸ hkind)
    | spans _ hnone =>
      rw [hnone] at hkind
      cases hkind
    | listed | rawNext => exact hlater hkind
    | closes | rawClose =>
      cases hkind
      exact ⟨_, List.mem_append_left _ (List.mem_singleton_self _), rfl⟩
    | opens | next | raw | finish => cases hkind

/-- A block starts behind the line that the reader is at. -/
theorem startRawText_lt (h : Outlined s place pieces lines) (hs : s.stage ≠ .start)
    {token : Token} (htoken : token ∈ tokensFrom place pieces)
    (hkind : token.kind = .startRawText) : place.line < token.span.start.line := by
  induction h with
  | done => exact absurd htoken List.not_mem_nil
  | @move _ _ place piece pieces _ hmove _ ih =>
    rcases List.mem_append.1 htoken with htoken | htoken
    · have hmem := (Piece.bounds_of_mem_tokens htoken).1
      rw [hkind] at hmem
      cases hmove.crosses hs with
      | within hkinds => cases hkinds _ hmem
      | spans hmarker | listed hmarker =>
        rw [← List.mem_singleton.1 hmem] at hmarker
        cases hmarker
      | next _ _ _ hindents => cases hindents.isMarker_eq_false _ hmem
      | raw h hne =>
        rw [List.mem_singleton.1 htoken, Position.after_append]
        refine Nat.lt_of_lt_of_le ?_ (line_le_after _ _)
        rw [Position.line_after]
        exact Nat.lt_add_of_pos_right (List.count_pos_iff.2 (h.lines.newline_mem hne))
      | finish => simp [List.mem_replicate] at hmem
      | opens | closes | rawNext | rawClose => cases List.mem_singleton.1 hmem
    · exact Nat.lt_of_le_of_lt (line_le_after _ _) (ih hmove.ne_start htoken)

end Outlined

/-- Behind a move, lines begin inside of the same things as in front of it. -/
theorem Crosses.hasContent_eq {place : Position} {tokens : List Token} {line : Nat × List Char}
    (h : Crosses s piece rest t) (hline : (place.after piece.text).line < line.1) :
    hasContent s.stage.closer (piece.tokens place ++ tokens) line =
      hasContent t.stage.closer tokens line := by
  have hstop : ∀ token ∈ piece.tokens place,
      token.span.stop.line < line.1 ∨ line.1 ≤ token.span.start.line := fun token htoken =>
    .inl (Nat.lt_of_le_of_lt (Piece.bounds_of_mem_tokens htoken).2.2.2 hline)
  have htoken {kind : TokenKind} (hkind : piece.kinds = [kind]) := piece.exists_token hkind place
  have hplain (hkinds : ∀ kind ∈ piece.kinds, kind.isMarker = false)
      (hcloser : s.stage.closer = t.stage.closer) :
      hasContent s.stage.closer (piece.tokens place ++ tokens) line =
        hasContent t.stage.closer tokens line := by
    have hmarker : ∀ token ∈ piece.tokens place, token.kind.isMarker = false := fun token htoken =>
      hkinds _ (Piece.bounds_of_mem_tokens htoken).1
    rw [hasContent, hasContent, beginsInside_append_of_not_isMarker hmarker hstop, hcloser]
    cases hkind : t.stage.closer with
    | none => rfl
    | some kind =>
      have hne : ∀ token ∈ piece.tokens place, token.kind ≠ kind := by
        intro token htoken heq
        have hfalse := hmarker token htoken
        rw [heq] at hfalse
        revert hkind
        cases t.stage <;> rintro ⟨⟩ <;> cases hfalse
      rw [Option.any_some, Option.any_some, reaches_append_of_ne hne]
  cases h with
  | within hkinds _ hcloser => exact hplain hkinds hcloser
  | spans hkind hs ht => exact hplain (List.forall_mem_singleton.2 hkind) (hs.trans ht.symm)
  | listed hkind => exact hplain (List.forall_mem_singleton.2 hkind) rfl
  | rawNext => exact hplain (List.forall_mem_singleton.2 rfl) rfl
  | next _ _ _ hindents => exact hplain hindents.isMarker_eq_false rfl
  | finish =>
    refine hplain (List.forall_mem_append.2 ⟨?_, List.forall_mem_singleton.2 rfl⟩) rfl
    exact fun kind hkind => List.eq_of_mem_replicate hkind ▸ rfl
  | opens | raw =>
    obtain ⟨token, htokens, hkind, _, hstart, hstop⟩ := htoken rfl
    rw [hasContent, hasContent, htokens, List.singleton_append,
      beginsInside_cons_of_lt (by omega) (by omega), hkind]
    simp [Stage.closer]
  | closes | rawClose =>
    obtain ⟨token, htokens, hkind, _, hstart, hstop⟩ := htoken rfl
    rw [hasContent, hasContent, htokens, List.singleton_append,
      beginsInside_cons_of_lt (by omega) (by omega), Stage.closer, Option.any_some, ← hkind,
      reaches_cons_self, hkind, decide_eq_false (by omega)]
    simp [Stage.closer]

/-- No line has content where all of them begin inside of something. -/
theorem filter_linesFrom_eq_nil {place : Position} {text rest : List Char}
    {closer : Option TokenKind} {tokens : List Token}
    (h : ∀ number, place.line < number → number ≤ (place.after text).line →
      closer.any (reaches · number tokens) = true ∨ beginsInside number tokens = true) :
    ((linesFrom place.line text).map fun line => (line.1, line.2 ++ rest)).filter
      (hasContent closer tokens) = [] := by
  rw [List.filter_eq_nil_iff]
  intro line hline hcontent
  obtain ⟨old, hold, rfl⟩ := List.mem_map.1 hline
  obtain ⟨hlt, hle⟩ := bounds_of_mem_linesFrom hold
  rw [← Position.line_after] at hle
  rw [hasContent, Bool.or_eq_true_iff.2 (h old.1 hlt hle), Bool.not_true,
    Bool.and_false] at hcontent
  cases hcontent

/-- The lines that start in a piece begin inside of something or are blank, apart from one
    whose content comes next. -/
theorem Crosses.filter_piece {place : Position} {tokens : List Token}
    (h : Crosses s piece rest t)
    (hlater : ∀ token ∈ tokens, (place.after piece.text).line ≤ token.span.start.line)
    (hraw : ∀ token ∈ tokens, token.kind = .startRawText →
      (place.after piece.text).line < token.span.start.line)
    (hcloser : ∀ kind, t.stage.closer = some kind → ∃ token ∈ tokens, token.kind = kind) :
    ((((linesFrom place.line piece.text).map fun line => (line.1, line.2 ++ rest)).filter
      (hasContent s.stage.closer (piece.tokens place ++ tokens))).map .ofText) =
      t.meets (place.after piece.text) := by
  have htoken {kind : TokenKind} (hkind : piece.kinds = [kind]) := piece.exists_token hkind place
  have hreaches {kind : TokenKind} (hkind : t.stage.closer = some kind) {number : Nat}
      (hnumber : number ≤ (place.after piece.text).line) : reaches kind number tokens = true :=
    reaches_of_forall (hcloser kind hkind) fun token htoken =>
      Nat.le_trans hnumber (hlater token htoken)
  -- Without a line break in its text, a piece starts no line.
  have hwithin (htext : '\n' ∉ piece.text) (ht : t.stage ≠ .content) :
      ((((linesFrom place.line piece.text).map fun line => (line.1, line.2 ++ rest)).filter
        (hasContent s.stage.closer (piece.tokens place ++ tokens))).map .ofText) =
        t.meets (place.after piece.text) := by
    rw [linesFrom_of_not_mem htext, State.meets, if_neg ht]
    rfl
  have hblank {closer : Option TokenKind} {tokens : List Token} (line : Nat × List Char)
      (h : isBlankLine line.2 = true) : hasContent closer tokens line = false := by
    rw [hasContent, h, Bool.not_true, Bool.false_and]
  cases h with
  | within _ htext _ ht => exact hwithin htext ht
  | opens => exact hwithin (by decide) nofun
  | rawClose => exact hwithin List.not_mem_nil nofun
  | spans _ _ _ ht =>
    -- The lines that start here begin inside of the one token.
    rw [filter_linesFrom_eq_nil, State.meets, if_neg ht, List.map_nil]
    intro number hlt hle
    rw [Piece.text_token] at hle
    refine .inr ?_
    rw [Piece.tokens_token, List.singleton_append, beginsInside, decide_eq_true hlt,
      decide_eq_true hle]
    rfl
  | listed hkind =>
    -- The list goes on behind the attribute, so that its end is still to come.
    obtain ⟨token, htokens, rfl, _⟩ := htoken rfl
    rw [filter_linesFrom_eq_nil]
    · rfl
    intro number _ hle
    have hne : ∀ other ∈ [token], other.kind ≠ .endAttributes := by
      refine List.forall_mem_singleton.2 fun h => ?_
      rw [h] at hkind
      cases hkind
    refine .inl ?_
    rw [Stage.closer, Option.any_some, htokens, reaches_append_of_ne hne, hreaches rfl hle]
  | @closes _ separators =>
    -- The lines that start here do so in front of the parenthesis, inside of the list.
    obtain ⟨token, htokens, hkind, hstart, _⟩ := htoken rfl
    have hline : (place.after (separators ++ ([')'] ++ []))).line =
        (place.after separators).line := by
      rw [Position.after_append, List.append_nil, Position.line_after]
      rfl
    rw [filter_linesFrom_eq_nil]
    · rfl
    intro number _ hle
    refine .inl ?_
    rw [Stage.closer, Option.any_some, htokens, List.singleton_append, ← hkind, reaches_cons_self,
      hstart, decide_eq_true_eq]
    exact hline ▸ hle
  | @next _ levels' _ lines indentation _ kinds h hne hcontent hindents =>
    -- All lines that start here are blank but the last, which begins inside of nothing.
    have hnone := newline_not_mem_of_blank h.blank
    rw [Piece.text, List.append_nil, Position.line_after, List.count_append,
      List.count_eq_zero.2 hnone, Nat.add_zero] at hlater hraw
    have hinside : beginsInside (place.line + lines.count '\n')
        (Piece.tokens ⟨lines, kinds, indentation, []⟩ place ++ tokens) = false := by
      have hstart : ∀ token ∈ Piece.tokens ⟨lines, kinds, indentation, []⟩ place,
          place.line + lines.count '\n' ≤ token.span.start.line := by
        intro token htoken
        obtain ⟨kind, _, rfl⟩ := List.mem_map.1 htoken
        exact Nat.le_of_eq (Position.line_after ..).symm
      refine beginsInside_eq_false (List.forall_mem_append.2 ⟨hstart, hlater⟩)
        (List.forall_mem_append.2 ⟨fun token htoken hkind => ?_, hraw⟩)
      have hplain := hindents.isMarker_eq_false _ (Piece.bounds_of_mem_tokens htoken).1
      rw [hkind] at hplain
      cases hplain
    have hwidth : indentation.length = levels'.headD 0 := by
      cases hindents with
      | deeper => rfl
      | same h | outer _ h => exact h
    rw [Piece.text, List.append_nil, h.lines.filter_linesFrom hne hnone _ _ hblank,
      hasContent, h.isBlankLine_eq_false hcontent, hinside, State.meets,
      if_pos rfl, Position.line_after, List.count_append, List.count_eq_zero.2 hnone, ← hwidth]
    simp [Stage.closer, ContentLine.ofText, h.takeWhile_eq]
  | @raw _ _ lines indentation _ h hne =>
    -- All but the last are blank, and the last one begins at the opening of a block.
    have hnone := newline_not_mem_of_blank h.blank
    obtain ⟨token, htokens, hkind, hstart, _⟩ := htoken rfl
    have hline : place.line + lines.count '\n' = token.span.start.line := by
      rw [hstart, Position.line_after, List.count_append, List.count_eq_zero.2 hnone, Nat.add_zero]
    have hinside : beginsInside (place.line + lines.count '\n') ([token] ++ tokens) = true := by
      have hle : place.line + lines.count '\n' ≤ (place.after (lines ++ indentation)).line := by
        rw [hline, hstart]
      rw [List.singleton_append, beginsInside, hkind,
        hreaches rfl (by simpa [Piece.text] using hle)]
      simp [hline]
    rw [Piece.text, List.append_nil, List.append_nil,
      h.lines.filter_linesFrom hne hnone _ _ hblank, hasContent, htokens, hinside,
      Bool.or_true, Bool.not_true, Bool.and_false]
    rfl
  | @rawNext _ _ lines taken left content _ h hne hrest =>
    -- All but the last are blank, and the end of the block is still to come.
    have hnone : '\n' ∉ taken := fun hmem =>
      newline_not_mem_of_blank h.blank (List.mem_append_left _ hmem)
    obtain ⟨token, htokens, hkind, _⟩ := htoken rfl
    have hne' : ∀ other ∈ [token], other.kind ≠ .endRawText := by
      refine List.forall_mem_singleton.2 fun h => ?_
      rw [hkind] at h
      cases h
    have hle : place.line + lines.count '\n' ≤ (place.after (lines ++ (taken ++ []))).line := by
      rw [Position.line_after, List.count_append]
      omega
    rw [Piece.text, List.append_nil, h.lines.filter_linesFrom hne hnone _ _ hblank,
      hasContent, Stage.closer, Option.any_some, htokens,
      reaches_append_of_ne hne', hreaches rfl hle, Bool.true_or, Bool.not_true, Bool.and_false]
    rfl
  | @finish _ _ lines indentation _ h hne hrest =>
    by_cases hlines : lines = []
    · subst hlines
      rw [hne rfl]
      rfl
    · rw [Piece.text, List.append_nil, List.append_nil,
        h.lines.filter_linesFrom hlines (newline_not_mem_of_blank h.blank) _ _ hblank,
        hrest, hblank _ h.isBlankLine_nil]
      rfl

theorem Outlined.eq_filter {place : Position} {pieces : List Piece} {lines : List ContentLine}
    (h : Outlined s place pieces lines) (hs : s.stage ≠ .start) :
    lines = ((linesFrom place.line (textOf pieces)).filter
      (hasContent s.stage.closer (tokensFrom place pieces))).map .ofText := by
  induction h with
  | done => rfl
  | @move s t place piece pieces lines hmove houtlined ih =>
    have hbehind : (linesFrom (place.after piece.text).line (textOf pieces)).filter
          (hasContent s.stage.closer
            (piece.tokens place ++ tokensFrom (place.after piece.text) pieces)) =
        (linesFrom (place.after piece.text).line (textOf pieces)).filter
          (hasContent t.stage.closer (tokensFrom (place.after piece.text) pieces)) := by
      refine List.filter_congr fun line hline => ?_
      exact (hmove.crosses hs).hasContent_eq (bounds_of_mem_linesFrom hline).1
    have hpiece := (hmove.crosses hs).filter_piece (fun _ => line_le_of_mem_tokensFrom)
      (fun _ => houtlined.startRawText_lt hmove.ne_start)
      (fun _ => houtlined.exists_closer hmove.ne_start)
    rw [textOf_cons, linesFrom_append, List.filter_append, List.map_append, tokensFrom, hpiece,
      ← Position.line_after, hbehind,
      ← ih hmove.ne_start]

/-- In front of the content of the first line there is no line break, and behind it no
    blank. -/
theorem exists_firstContent (text : List Char) :
    ∃ skipped, '\n' ∉ skipped ∧ text = skipped ++ (firstContent text).rest ∧
      ∀ c ∈ (firstContent text).rest.head?, isInlineBlank c = false := by
  obtain ⟨mark, cs, hmark, htext, hrest⟩ : ∃ mark cs, '\n' ∉ mark ∧ text = mark ++ cs ∧
      (firstContent text).rest = cs.dropWhile isInlineBlank := by
    unfold firstContent
    split
    · exact ⟨['\ufeff'], _, by decide, rfl, rfl⟩
    · exact ⟨[], _, List.not_mem_nil, rfl, rfl⟩
  refine ⟨mark ++ cs.takeWhile isInlineBlank, ?_, ?_, ?_⟩
  · rw [List.mem_append, not_or]
    exact ⟨hmark, newline_not_mem_of_blank fun c hc => List.mem_takeWhile_imp hc⟩
  · rw [hrest, List.append_assoc, List.takeWhile_append_dropWhile, htext]
  · rw [hrest]
    exact head?_dropWhile_eq_false _ _

end Lexer

/-- The text of a template is read along a path that meets the lines with content. -/
theorem exists_outlined_textOf {template : String} {tokens : List Token}
    (h : tokenize template = .ok tokens) :
    ∃ pieces, Outlined ⟨.start, []⟩ .first pieces (contentLines template.toList tokens) ∧
      textOf pieces = template.toList ∧ tokens = tokensFrom .first pieces := by
  obtain ⟨pieces, hpath, htext, htokens⟩ := exists_path_tokenize h
  obtain ⟨lines, hlines⟩ := hpath.exists_outlined rfl rfl .first
  refine ⟨pieces, ?_, htext, htokens⟩
  suffices hcontent : contentLines template.toList tokens = lines by rwa [hcontent]
  rw [← htext, htokens]
  cases hlines with
  | done hdone => cases hdone
  | @move _ t _ piece pieces lines hmove hs =>
    have hlater := hs.eq_filter hmove.ne_start
    have hinside : beginsInside (Position.first.after piece.text).line
        (tokensFrom (Position.first.after piece.text) pieces) = false :=
      beginsInside_eq_false (fun _ => line_le_of_mem_tokensFrom)
        fun _ => hs.startRawText_lt hmove.ne_start
    generalize hrest : textOf pieces = rest at hmove
    cases hmove with
    | @start skipped _ hfirst =>
      obtain ⟨skipped', hskipped, htext, hhead⟩ := exists_firstContent (skipped ++ rest)
      rw [hfirst] at htext hhead
      obtain rfl := List.append_cancel_right htext
      have hplace : (Position.first.after skipped).line = 1 := by
        rw [Position.line_after, List.count_eq_zero.2 hskipped]
        rfl
      rw [Piece.text_blank, hplace, hrest] at hlater
      rw [Piece.text_blank, hplace] at hinside
      have hcloser : (if isLineEnd rest then Stage.lineEnd false else .content).closer = none := by
        split <;> rfl
      rw [textOf_cons, Piece.text_blank, hrest, contentLines, hfirst, linesFrom_append,
        linesFrom_of_not_mem hskipped, List.count_eq_zero.2 hskipped, List.map_nil,
        List.nil_append, List.filter_cons, tokensFrom, Piece.tokens_blank, List.nil_append,
        Piece.text_blank, hinside, isBlankLine, (blanks_of_head? hhead).2, hlater, State.meets,
        hplace, hcloser]
      cases isLineEnd rest with
      | true => rfl
      | false =>
        have hwidth : ContentLine.ofText (1, rest) = ⟨1, 0⟩ := by
          rw [ContentLine.ofText, (blanks_of_head? hhead).1]
          rfl
        exact congrArg (· :: _) hwidth

/-- A template is read along a path that meets the lines with content. -/
theorem exists_outlined_tokenize {template : String} {tokens : List Token}
    (h : tokenize template = .ok tokens) :
    ∃ pieces, Outlined ⟨.start, []⟩ .first pieces (contentLines template.toList tokens) ∧
      tokens = tokensFrom .first pieces := by
  obtain ⟨pieces, houtlined, -, htokens⟩ := exists_outlined_textOf h
  exact ⟨pieces, houtlined, htokens⟩

end PugLint
