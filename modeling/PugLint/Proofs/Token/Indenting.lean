import PugLint.Proofs.Token.Outline
import PugLint.Proofs.Token.Variation

/-!
# Texts that are indented as a whole

A template is indented by putting blanks in front of each of its lines that is not blank. The
reader then goes along the same path, on levels that are deeper by the blanks. The first line of
the text is the exception: its indentation does not count, so that the lines behind it become
deeper than it.

Where the levels lie on a ground, which is the level of the lines that were not indented before,
one more level is open throughout. Without a ground, no line may reach it.

* `indentLines`, `indented`: the indented text;
* `Lexer.SameLine`: two texts with the same first line, which is what most moves see;
* `Lexer.State.deepen`: where the reader stands in the indented text;
* `Lexer.Outlined.deepen`: the path through it.
-/

namespace PugLint

open Lexer

/-- A text with blanks in front of those of its lines that are not blank, the first line apart. -/
def indentLines (blanks : List Char) : List Char → List Char
  | [] => []
  | c :: cs =>
    if c == '\n' && !isBlankLine cs then c :: (blanks ++ indentLines blanks cs)
    else c :: indentLines blanks cs

/-- A text with blanks in front of each of its lines that is not blank. -/
def indented (blanks text : List Char) : List Char :=
  (if isBlankLine text then [] else blanks) ++ indentLines blanks text

namespace Lexer

/-! ### Texts with the same first line -/

/-- Two texts are the same up to the first line break or the end of both. -/
inductive SameLine : List Char → List Char → Prop where
  | nil : SameLine [] []
  | stop {rest rest' : List Char} : SameLine ('\n' :: rest) ('\n' :: rest')
  | cons {c : Char} {text text' : List Char} (h : SameLine text text') :
      SameLine (c :: text) (c :: text')

namespace SameLine

variable {text text' : List Char}

theorem prepend (h : SameLine text text') (front : List Char) :
    SameLine (front ++ text) (front ++ text') := by
  induction front with
  | nil => exact h
  | cons c front ih => exact .cons ih

theorem head?_eq (h : SameLine text text') : text'.head? = text.head? := by
  cases h <;> rfl

theorem ne_nil (h : SameLine text text') (hne : text ≠ []) : text' ≠ [] := by
  cases h with
  | nil => exact hne
  | stop => exact List.cons_ne_nil _ _
  | cons => exact List.cons_ne_nil _ _

/-- Characters up to the line break are passed over alike. -/
theorem dropWhile (h : SameLine text text') {p : Char → Bool} (hp : p '\n' = false) :
    text'.takeWhile p = text.takeWhile p ∧ SameLine (text.dropWhile p) (text'.dropWhile p) := by
  induction h with
  | nil => exact ⟨rfl, .nil⟩
  | stop =>
    have hstop : ¬p '\n' = true := by simp [hp]
    simp only [List.takeWhile_cons_of_neg hstop, List.dropWhile_cons_of_neg hstop]
    exact ⟨trivial, .stop⟩
  | @cons c text text' h ih =>
    by_cases hc : p c = true
    · simp only [List.takeWhile_cons_of_pos hc, List.dropWhile_cons_of_pos hc]
      exact ⟨congrArg _ ih.1, ih.2⟩
    · simp only [List.takeWhile_cons_of_neg hc, List.dropWhile_cons_of_neg hc]
      exact ⟨trivial, .cons h⟩

/-- What one text starts with on its first line, the other one does too. -/
theorem isPrefix (h : SameLine text text') {marker : List Char} (hmarker : '\n' ∉ marker)
    (hmarked : marker <+: text') : marker <+: text := by
  induction h generalizing marker with
  | nil => exact hmarked
  | stop =>
    rcases marker with _ | ⟨c, marker⟩
    · exact List.nil_prefix
    · obtain ⟨rfl, -⟩ := List.cons_prefix_cons.1 hmarked
      exact absurd List.mem_cons_self hmarker
  | cons _ ih =>
    rcases marker with _ | ⟨c, marker⟩
    · exact List.nil_prefix
    · obtain ⟨rfl, hmore⟩ := List.cons_prefix_cons.1 hmarked
      exact List.cons_prefix_cons.2
        ⟨rfl, ih (fun hmem => hmarker (List.mem_cons_of_mem _ hmem)) hmore⟩

theorem isLineEnd_eq (h : SameLine text text') : isLineEnd text' = isLineEnd text := by
  cases h with
  | nil => rfl
  | stop => rfl
  | @cons c text text' h =>
    by_cases hc : c = '\r'
    · subst hc
      cases h with
      | nil => rfl
      | stop => rfl
      | @cons d text text' h =>
        by_cases hd : d = '\n'
        · subst hd
          rfl
        · have hnot (text : List Char) : isLineEnd ('\r' :: d :: text) = false := by
            rw [isLineEnd] <;> simp_all
          rw [hnot, hnot]
    · by_cases hn : c = '\n'
      · subst hn
        rfl
      · rw [isLineEnd_cons_of_ne hn hc, isLineEnd_cons_of_ne hn hc]

theorem isLine (h : SameLine text text') {line : List Char} (hline : IsLine line text) :
    IsLine line text' :=
  hline.congr fun front => (h.prepend front).isLineEnd_eq

theorem tagAt (h : SameLine text text') {name : List Char} (hname : TagAt name text) :
    TagAt name text' := by
  refine { hname with behind := ?_ }
  have hdrop : SameLine (text.dropWhile isJoint) (text'.dropWhile isJoint) := (h.dropWhile rfl).2
  rw [hdrop.head?_eq]
  exact hname.behind

theorem startsElement (h : SameLine text text') (hstarts : StartsElement text) :
    StartsElement text' where
  ne_nil := h.ne_nil hstarts.ne_nil
  head := by
    rw [h.head?_eq]
    exact hstarts.head
  comment hmarked := hstarts.comment (h.isPrefix (by decide) hmarked)
  code hmarked := hstarts.code (h.isPrefix (by decide) hmarked)
  word := by
    have hword := hstarts.word
    rw [keywordLine?_splitLine, StartsKeyword] at hword ⊢
    have hdrop := h.dropWhile (p := Char.isLower) rfl
    rwa [hdrop.1, hdrop.2.head?_eq, hdrop.2.isLineEnd_eq]

/-- What ends a name is seen within two characters. -/
theorem endsAlike (h : SameLine text text') (hne : text ≠ []) : EndsAlike text text' := by
  cases h with
  | nil => exact absurd rfl hne
  | @stop rest rest' => exact ⟨'\n', rest, rest', rfl, rfl, fun hc => absurd hc (by decide)⟩
  | @cons c text text' h => exact ⟨c, text, text', rfl, rfl, fun _ => by rw [h.head?_eq]⟩

/-- A sign between a name and a value stands on the line of the name. -/
theorem scanAssignment_eq_none (h : SameLine text text') (hnone : scanAssignment text = none) :
    scanAssignment text' = none := by
  rw [scanAssignment_eq_none_iff] at hnone ⊢
  have hdrop := (h.dropWhile (p := isInlineBlank) rfl).2
  rintro (hsign | hsign)
  · exact hnone (.inl (hdrop.isPrefix (by decide) hsign))
  · exact hnone (.inr (hdrop.isPrefix (by decide) hsign))

theorem attributeAt (h : SameLine text text') (hne : text ≠ []) {kind : TokenKind}
    {written : List Char} (hat : AttributeAt kind written text) :
    AttributeAt kind written text' :=
  hat.congr_of_endsAlike (h.endsAlike hne) h.scanAssignment_eq_none

end SameLine

/-! ### Indented texts -/

variable {blanks : List Char}

theorem indentLines_append {front : List Char} (h : '\n' ∉ front) (blanks rest : List Char) :
    indentLines blanks (front ++ rest) = front ++ indentLines blanks rest := by
  induction front with
  | nil => rfl
  | cons c front ih =>
    obtain ⟨hc, hfront⟩ := not_or.1 (mt List.mem_cons.2 h)
    have hplain : (c == '\n' && !isBlankLine (front ++ rest)) = false := by
      rw [beq_false_of_ne (Ne.symm hc), Bool.false_and]
    rw [List.cons_append, indentLines, if_neg (Bool.eq_false_iff.1 hplain), ih hfront,
      List.cons_append]

theorem sameLine_indentLines (blanks text : List Char) :
    SameLine text (indentLines blanks text) := by
  induction text with
  | nil => exact .nil
  | cons c text ih =>
    rw [indentLines]
    split
    · rename_i hc
      rw [Bool.and_eq_true, beq_iff_eq] at hc
      rw [hc.1]
      exact .stop
    · exact .cons ih

/-- Behind lines that are passed over, a line is indented if it is not blank. -/
theorem SkippedLines.indentLines_append {lines : List Char} (h : SkippedLines lines)
    (hne : lines ≠ []) (blanks rest : List Char) :
    indentLines blanks (lines ++ rest) =
      lines ++ ((if PugLint.isBlankLine rest then [] else blanks) ++ indentLines blanks rest) := by
  induction h with
  | nil => exact absurd rfl hne
  | @cons gap ending more hgap hending hmore ih =>
    have hbreak : indentLines blanks ('\n' :: (more ++ rest)) = '\n' :: (more ++
        ((if PugLint.isBlankLine rest then [] else blanks) ++ indentLines blanks rest)) := by
      rw [indentLines]
      by_cases hnil : more = []
      · subst hnil
        cases hblank : PugLint.isBlankLine rest <;> simp [hblank]
      · simp [hmore.isBlankLine hnil rest, ih hnil]
    simp only [List.append_assoc]
    rw [Lexer.indentLines_append (newline_not_mem_of_blank hgap)]
    rcases hending with rfl | rfl
    · rw [List.singleton_append, hbreak, List.singleton_append]
    · rw [List.cons_append, List.singleton_append, indentLines, if_neg (by simp), hbreak]
      rfl

/-- The line ahead is indented, if there is content on it. -/
theorem Ahead.indentLines_append {lines indentation content : List Char}
    (h : Ahead lines indentation content) (hne : lines ≠ []) (hcontent : content ≠ [])
    (blanks : List Char) : indentLines blanks (lines ++ (indentation ++ content)) =
      lines ++ (blanks ++ indentation ++ indentLines blanks content) := by
  rw [h.lines.indentLines_append hne, h.isBlankLine_eq_false hcontent,
    Lexer.indentLines_append (newline_not_mem_of_blank h.blank), List.append_assoc]
  rfl

theorem Ahead.indent {lines indentation content : List Char} (h : Ahead lines indentation content)
    (hblanks : ∀ c ∈ blanks, isInlineBlank c = true) (hcontent : content ≠ []) :
    Ahead lines (blanks ++ indentation) (indentLines blanks content) where
  lines := h.lines
  blank := List.forall_mem_append.2 ⟨hblanks, h.blank⟩
  marked := by
    have hsame := sameLine_indentLines blanks content
    have hmarked := h.marked.resolve_left hcontent
    exact .inr ⟨hsame.isLineEnd_eq.trans hmarked.1, by rw [hsame.head?_eq]; exact hmarked.2⟩

/-- Blanks between attributes are nothing but separators. -/
theorem exists_separators (hblanks : ∀ c ∈ blanks, isInlineBlank c = true)
    {separators : List Char} (h : ∀ c ∈ separators, isSeparator c = true) (rest : List Char) :
    ∃ separators', (∀ c ∈ separators', isSeparator c = true) ∧
      indentLines blanks (separators ++ rest) = separators' ++ indentLines blanks rest := by
  induction separators with
  | nil => exact ⟨[], List.forall_mem_nil _, rfl⟩
  | cons c separators ih =>
    obtain ⟨hc, hseparators⟩ := List.forall_mem_cons.1 h
    obtain ⟨more, hmore, htext⟩ := ih hseparators
    rw [List.cons_append, indentLines, htext]
    split
    · refine ⟨c :: (blanks ++ more), List.forall_mem_cons.2 ⟨hc, ?_⟩, by simp⟩
      exact List.forall_mem_append.2
        ⟨fun d hd => isSeparator_of_isInlineBlank (hblanks d hd), hmore⟩
    · exact ⟨c :: more, List.forall_mem_cons.2 ⟨hc, hmore⟩, rfl⟩

/-! ### Deeper levels -/

/-- A stage of the reader in the indented text. -/
def Stage.deepen (n : Nat) : Stage → Stage
  | .rawLine base => .rawLine (base + n)
  | .rawEnd base => .rawEnd (base + n)
  | stage => stage

/-- A state of the reader in the indented text, on levels that lie on a ground. -/
def State.deepen (n : Nat) (ground : List Nat) (s : State) : State :=
  ⟨s.stage.deepen n, s.levels.map (· + n) ++ ground⟩

/-- A line of a given width in the indented text lies above the ground, which is the level of the
    lines that were not indented before, or nothing where there are no such lines. -/
def Grounded (n : Nat) (ground : List Nat) (width : Nat) : Prop :=
  ground = [n] ∨ ground = [] ∧ 0 < width

variable {n : Nat} {ground : List Nat}

theorem headD_deepen_le (hground : ground = [n] ∨ ground = []) (levels : List Nat) :
    (levels.map (· + n) ++ ground).headD 0 ≤ levels.headD 0 + n := by
  rcases levels with _ | ⟨level, levels⟩
  · rcases hground with rfl | rfl <;> simp
  · exact Nat.le_refl _

theorem headD_deepen {width : Nat} (h : Grounded n ground width) {levels : List Nat}
    (hwidth : width ≤ levels.headD 0) :
    (levels.map (· + n) ++ ground).headD 0 = levels.headD 0 + n := by
  rcases levels with _ | ⟨level, levels⟩
  · rcases h with rfl | ⟨-, hpos⟩
    · simp
    · exact absurd (Nat.lt_of_lt_of_le hpos hwidth) (Nat.lt_irrefl 0)
  · rfl

end Lexer

/-- A kind of tokens without the width of an indentation. -/
def TokenKind.flat : TokenKind → TokenKind
  | .indent _ => .indent 0
  | kind => kind

/-- Whether a token is a line of its own behind which deeper lines are neither nested nor raw
    text. -/
def TokenKind.standsAlone : TokenKind → Bool
  | .text _ | .html _ | .doctype _ | .control _ _ => true
  | .code value buffered => buffered || !(Text.trim value.toList).isEmpty
  | _ => false

namespace Lexer

variable {n : Nat} {ground : List Nat}

/-- The tokens of an indentation are the same ones on deeper levels. -/
theorem Indents.deepen {levels levels' : List Nat} {width : Nat} {kinds : List TokenKind}
    (h : Indents levels width kinds levels') (hground : Grounded n ground width) :
    ∃ kinds', Indents (levels.map (· + n) ++ ground) (width + n) kinds'
        (levels'.map (· + n) ++ ground) ∧ kinds'.map TokenKind.flat = kinds.map TokenKind.flat := by
  cases h with
  | deeper h =>
    refine ⟨[.indent (width + n)], .deeper ?_, rfl⟩
    exact Nat.lt_of_le_of_lt (headD_deepen_le (hground.imp_right And.left) levels)
      (Nat.add_lt_add_right h n)
  | same h =>
    exact ⟨_, .same (by rw [headD_deepen hground (Nat.le_of_eq h), h]), rfl⟩
  | @outer closed levels _ hne hwidth h =>
    refine ⟨List.replicate (closed.map (· + n)).length .outdent, ?_, by rw [List.length_map]⟩
    rw [List.map_append, List.append_assoc]
    refine .outer (by simpa using hne) (by rw [headD_deepen hground (Nat.le_of_eq hwidth), hwidth])
      fun level hlevel => ?_
    obtain ⟨old, hold, rfl⟩ := List.mem_map.1 hlevel
    exact Nat.add_lt_add_right (h old hold) n

/-! ### Moves -/

/-- Whether the reader stands on a line, and not in a list of attributes. -/
def Stage.inLine : Stage → Bool
  | .content | .head _ | .rawLine _ => true
  | _ => false

variable {s t : State} {piece : Piece} {rest : List Char} {blanks : List Char}

/-- A move on a line does not see the text behind the line, nor the levels. -/
theorem Move.sameLine (h : Move s piece rest t) (hs : s.stage.inLine = true) {rest' : List Char}
    (hsame : SameLine rest rest') (n : Nat) (levels : List Nat) :
    t.levels = s.levels ∧
      Move ⟨s.stage.deepen n, levels⟩ piece rest' ⟨t.stage.deepen n, levels⟩ := by
  cases h with
  | bar hbar hline => exact ⟨rfl, .bar hbar (hsame.isLine hline)⟩
  | whole h hline => exact ⟨rfl, .whole h (hsame.isLine hline)⟩
  | call hne hname hrest => exact ⟨rfl, .call hne hname (by rwa [hsame.head?_eq])⟩
  | element h => exact ⟨rfl, .element (hsame.startsElement h)⟩
  | ended h => exact ⟨rfl, .ended (hsame.isLineEnd_eq.trans h)⟩
  | tag hc h => exact ⟨rfl, .tag hc (hsame.tagAt (tagAt_of_scanTag h)).scanTag⟩
  | literal hc hne hname hrest => exact ⟨rfl, .literal hc hne hname (by rwa [hsame.head?_eq])⟩
  | dot hblanks hrest => exact ⟨rfl, .dot hblanks (hsame.isLineEnd_eq.trans hrest)⟩
  | opens => exact ⟨rfl, .opens⟩
  | spread h => exact ⟨rfl, .spread h⟩
  | colon hne hblanks hrest => exact ⟨rfl, .colon hne hblanks (by rwa [hsame.head?_eq])⟩
  | slash h => exact ⟨rfl, .slash (hsame.isLineEnd_eq.trans h)⟩
  | code h hline => exact ⟨rfl, .code h (hsame.isLine hline)⟩
  | trailing hc hline h => exact ⟨rfl, .trailing hc (hsame.isLine hline) h⟩
  | text hc hline h => exact ⟨rfl, .text hc (hsame.isLine hline) h⟩
  | interpolation h hline => exact ⟨rfl, .interpolation h (hsame.isLine hline)⟩
  | rawText hline => exact ⟨rfl, .rawText (hsame.isLine hline)⟩
  | start | listed | closes | next | raw | finish | rawNext | rawClose => cases hs

/-- A move on a line stays there, if its tokens do. -/
theorem Move.newline_not_mem (h : Move s piece rest t) (hs : s.stage.inLine = true)
    (hwritten : piece.kinds ≠ [] → '\n' ∉ piece.written) : '\n' ∉ piece.text := by
  have hcrosses := h.crosses fun hstart => by
    rw [hstart] at hs
    cases hs
  cases hcrosses with
  | within _ htext => exact htext
  | spans =>
    rw [Piece.text_token]
    exact hwritten (List.cons_ne_nil _ _)
  | opens => decide
  | listed | closes | next | raw | rawNext | rawClose | finish => cases hs

/-- A move in the indented text that stands for another one: the text of its piece is that of the
    other one indented, and so is what stands behind it, and it gives the same tokens. -/
structure Stands (blanks : List Char) (piece : Piece) (rest : List Char) (piece' : Piece) :
    Prop where
  text_eq : piece'.text ++ indentLines blanks rest = indentLines blanks (piece.text ++ rest)
  kinds_eq : piece'.kinds.map TokenKind.flat = piece.kinds.map TokenKind.flat

theorem Move.deepen_line (h : Move s piece rest t) (hs : s.stage.inLine = true)
    (hwritten : piece.kinds ≠ [] → '\n' ∉ piece.written) (blanks : List Char) (n : Nat)
    (ground : List Nat) : ∃ piece', Stands blanks piece rest piece' ∧
      Move (s.deepen n ground) piece' (indentLines blanks rest) (t.deepen n ground) := by
  obtain ⟨hlevels, hmove⟩ := h.sameLine hs (sameLine_indentLines blanks rest) n
    (s.levels.map (· + n) ++ ground)
  refine ⟨piece, ⟨(indentLines_append (h.newline_not_mem hs hwritten) blanks rest).symm, rfl⟩, ?_⟩
  rwa [State.deepen, State.deepen, hlevels]

/-- In a list of attributes, the blanks are separators. -/
theorem Move.deepen_list (h : Move s piece rest t) (hs : s.stage = .list)
    (hwritten : piece.kinds ≠ [] → '\n' ∉ piece.written)
    (hblanks : ∀ c ∈ blanks, isInlineBlank c = true) (n : Nat) (ground : List Nat) :
    ∃ piece', Stands blanks piece rest piece' ∧
      Move (s.deepen n ground) piece' (indentLines blanks rest) (t.deepen n ground) := by
  have htext {separators : List Char} (hseparators : ∀ c ∈ separators, isSeparator c = true)
      (written : List Char) (hplain : '\n' ∉ written) (kind : TokenKind) : ∃ separators',
        (∀ c ∈ separators', isSeparator c = true) ∧
          Stands blanks ⟨separators, [kind], written, []⟩ rest
            ⟨separators', [kind], written, []⟩ := by
    obtain ⟨separators', hseparators', htext⟩ :=
      exists_separators hblanks hseparators (written ++ rest)
    refine ⟨separators', hseparators', ?_, rfl⟩
    simp only [Piece.text, List.append_nil, List.append_assoc]
    rw [htext, indentLines_append hplain]
  have hsame := sameLine_indentLines blanks rest
  cases h with
  | @listed _ separators written _ kind hseparators hhead h hrest =>
    obtain ⟨separators', hseparators', hstands⟩ :=
      htext hseparators written (hwritten (List.cons_ne_nil _ _)) kind
    refine ⟨_, hstands, .listed hseparators' ?_
      (hsame.attributeAt hrest h.attributeAt).readsAttribute (hsame.ne_nil hrest)⟩
    rwa [(hsame.prepend written).head?_eq]
  | @closes _ separators _ hseparators =>
    obtain ⟨separators', hseparators', hstands⟩ :=
      htext hseparators [')'] (by decide) .endAttributes
    exact ⟨_, hstands, .closes hseparators'⟩
  | start | bar | whole | call | element | ended | tag | literal | dot | opens | spread | colon |
    slash | code | trailing | text | interpolation | next | raw | finish | rawText | rawNext |
    rawClose => cases hs

/-- The line ahead of a text lies above the ground, if it has content. -/
def GroundedAhead (n : Nat) (ground : List Nat) (text : List Char) : Prop :=
  ∀ lines indentation content, Ahead lines indentation content → content ≠ [] →
    text = lines ++ (indentation ++ content) → Grounded n ground indentation.length

theorem length_indent (blanks indentation : List Char) :
    (blanks ++ indentation).length = indentation.length + blanks.length := by
  rw [List.length_append, Nat.add_comm]

/-- A deeper line is deeper among deeper lines. -/
theorem headD_deepen_lt (hground : ground = [blanks.length] ∨ ground = []) {levels : List Nat}
    {indentation : List Char} (h : levels.headD 0 < indentation.length) :
    (levels.map (· + blanks.length) ++ ground).headD 0 < (blanks ++ indentation).length := by
  rw [length_indent]
  exact Nat.lt_of_le_of_lt (headD_deepen_le hground levels) (Nat.add_lt_add_right h _)

/-- Lines without content stay as they are. -/
theorem Ahead.indentLines_nil {lines indentation : List Char} (h : Ahead lines indentation [])
    (blanks : List Char) : indentLines blanks (lines ++ indentation) = lines ++ indentation := by
  have hindentation : indentLines blanks indentation = indentation := by
    have happend := Lexer.indentLines_append (newline_not_mem_of_blank h.blank) blanks []
    rwa [List.append_nil, indentLines, List.append_nil] at happend
  by_cases hne : lines = []
  · rw [hne, List.nil_append, hindentation]
  · have hblank := h.isBlankLine_nil
    rw [List.append_nil] at hblank
    rw [h.lines.indentLines_append hne, hblank, hindentation]
    rfl

/-- The line ahead in the indented text. -/
theorem Ahead.exists_indent {lines indentation content : List Char}
    (h : Ahead lines indentation content) (hblanks : ∀ c ∈ blanks, isInlineBlank c = true) :
    ∃ indentation' content', Ahead lines indentation' content' ∧
      indentLines blanks (lines ++ (indentation ++ content)) =
        lines ++ (indentation' ++ content') ∧
      (content = [] → content' = []) ∧
      indentation'.length ≤ indentation.length + blanks.length := by
  by_cases hcontent : content = []
  · subst hcontent
    refine ⟨indentation, [], h, ?_, id, Nat.le_add_right _ _⟩
    rw [List.append_nil, h.indentLines_nil]
  · have hindent := h.indent hblanks hcontent
    by_cases hne : lines = []
    · subst hne
      refine ⟨indentation, _, { hindent with blank := h.blank }, ?_,
        fun hnil => absurd hnil hcontent, Nat.le_add_right _ _⟩
      exact Lexer.indentLines_append (newline_not_mem_of_blank h.blank) blanks content
    · exact ⟨_, _, hindent, h.indentLines_append hne hcontent blanks,
        fun hnil => absurd hnil hcontent, Nat.le_of_eq (length_indent _ _)⟩

/-- At the end of a line, the next one is read on deeper levels. -/
theorem Move.deepen_lineEnd {opensBlock : Bool} {levels : List Nat}
    (h : Move ⟨.lineEnd opensBlock, levels⟩ piece rest t) (ht : t.stage ≠ .done)
    (hblanks : ∀ c ∈ blanks, isInlineBlank c = true)
    (hground : ground = [blanks.length] ∨ ground = [])
    (hahead : GroundedAhead blanks.length ground (piece.text ++ rest)) :
    ∃ piece', Stands blanks piece rest piece' ∧
      Move (State.deepen blanks.length ground ⟨.lineEnd opensBlock, levels⟩) piece'
        (indentLines blanks rest) (t.deepen blanks.length ground) := by
  cases h with
  | @next _ levels' _ lines indentation content kinds h hne hcontent hdeeper hindents =>
    have hwidth := hahead lines indentation _ h hcontent
      (by simp only [Piece.text, List.append_nil, List.append_assoc])
    obtain ⟨kinds', hindents', hkinds⟩ := hindents.deepen hwidth
    refine ⟨⟨lines, kinds', blanks ++ indentation, []⟩, ⟨?_, hkinds⟩,
      .next (h.indent hblanks hcontent) hne ((sameLine_indentLines _ _).ne_nil hcontent)
        (fun hopens => ?_) (by rwa [length_indent])⟩
    · simp only [Piece.text, List.append_nil, List.append_assoc]
      rw [h.indentLines_append hne hcontent, List.append_assoc]
    · rw [length_indent]
      exact Nat.le_trans (Nat.add_le_add_right (hdeeper hopens) _)
        (Nat.le_of_eq (headD_deepen hwidth (hdeeper hopens)).symm)
  | @raw _ lines indentation content h hne hcontent hdeeper =>
    refine ⟨⟨lines ++ (blanks ++ indentation), [.startRawText], [], []⟩, ⟨?_, rfl⟩, ?_⟩
    · simp only [Piece.text, List.append_nil, List.append_assoc]
      rw [h.indentLines_append hne hcontent, List.append_assoc]
    · have hmove := Move.raw (h.indent hblanks hcontent) hne
        ((sameLine_indentLines _ _).ne_nil hcontent) (headD_deepen_lt hground hdeeper)
      rwa [length_indent] at hmove
  | finish => exact absurd rfl ht

/-- At the end of a line of raw text, the next one is read on deeper levels. -/
theorem Move.deepen_rawEnd {base : Nat} {levels : List Nat}
    (h : Move ⟨.rawEnd base, levels⟩ piece rest t)
    (hblanks : ∀ c ∈ blanks, isInlineBlank c = true)
    (hground : ground = [blanks.length] ∨ ground = [])
    (hahead : GroundedAhead blanks.length ground (piece.text ++ rest)) :
    ∃ piece', Stands blanks piece rest piece' ∧
      Move (State.deepen blanks.length ground ⟨.rawEnd base, levels⟩) piece'
        (indentLines blanks rest) (t.deepen blanks.length ground) := by
  cases h with
  | @rawNext _ _ lines indentation content h hne hcontent hdeeper =>
    have hmin : min (blanks ++ indentation).length (base + blanks.length) =
        blanks.length + min indentation.length base := by
      rw [length_indent]
      omega
    have hdrop : '\n' ∉ indentation.drop (min indentation.length base) :=
      fun hmem => newline_not_mem_of_blank h.blank (List.mem_of_mem_drop hmem)
    have hmove := @Move.rawNext _ (base + blanks.length) _ _ _ (h.indent hblanks hcontent) hne
      ((sameLine_indentLines _ _).ne_nil hcontent) (headD_deepen_lt hground hdeeper)
    rw [hmin, List.take_length_add_append, List.drop_length_add_append] at hmove
    have hsplit (behind : List Char) : indentation.take (min indentation.length base) ++
        (indentation.drop (min indentation.length base) ++ behind) = indentation ++ behind := by
      rw [← List.append_assoc, List.take_append_drop]
    refine ⟨⟨lines, [.newline], blanks ++ indentation.take (min indentation.length base), []⟩,
      ⟨?_, rfl⟩, by rwa [indentLines_append hdrop]⟩
    simp only [Piece.text, List.append_nil, List.append_assoc]
    rw [hsplit, h.indentLines_append hne hcontent, indentLines_append hdrop, hsplit,
      List.append_assoc]
  | @rawClose _ _ lines indentation content h hdeeper =>
    obtain ⟨indentation', content', h', htext, hnil, hle⟩ := h.exists_indent hblanks
    rw [htext]
    refine ⟨.token .endRawText [], ⟨?_, rfl⟩, .rawClose h' ?_⟩
    · rw [Piece.text_token, List.nil_append, List.nil_append, htext]
    · by_cases hcontent : content = []
      · exact .inl (hnil hcontent)
      · have hwidth := hahead lines indentation content h hcontent rfl
        have hdeeper := hdeeper.resolve_left hcontent
        refine .inr (Nat.le_trans hle ?_)
        exact Nat.le_trans (Nat.add_le_add_right hdeeper _)
          (Nat.le_of_eq (headD_deepen hwidth hdeeper).symm)

/-- Whether the reader stands at the end of a line. -/
def Stage.endsLine : Stage → Bool
  | .lineEnd _ | .rawEnd _ => true
  | _ => false

/-- Every move but the first and the last one is made in the indented text as well. -/
theorem Move.deepen (h : Move s piece rest t) (hstart : s.stage ≠ .start) (ht : t.stage ≠ .done)
    (hblanks : ∀ c ∈ blanks, isInlineBlank c = true)
    (hwritten : piece.kinds ≠ [] → '\n' ∉ piece.written)
    (hground : ground = [blanks.length] ∨ ground = [])
    (hahead : s.stage.endsLine = true →
      GroundedAhead blanks.length ground (piece.text ++ rest)) :
    ∃ piece', Stands blanks piece rest piece' ∧
      Move (s.deepen blanks.length ground) piece' (indentLines blanks rest)
        (t.deepen blanks.length ground) := by
  obtain ⟨stage, levels⟩ := s
  cases stage with
  | start => exact absurd rfl hstart
  | content | head | rawLine => exact h.deepen_line rfl hwritten _ _ _
  | list => exact h.deepen_list rfl hwritten hblanks _ _
  | lineEnd => exact h.deepen_lineEnd ht hblanks hground (hahead rfl)
  | rawEnd => exact h.deepen_rawEnd hblanks hground (hahead rfl)
  | done => exact absurd rfl h.ne_done

/-! ### Paths -/

theorem Indents.headD_eq {levels levels' : List Nat} {width : Nat} {kinds : List TokenKind}
    (h : Indents levels width kinds levels') : levels'.headD 0 = width := by
  cases h with
  | deeper => rfl
  | same h => exact h.symm
  | outer _ hwidth => exact hwidth.symm

/-- A line that stands alone opens no block of raw text. -/
theorem WholeLine.opensBlock_eq_false {line : List Char} {kind : TokenKind}
    {opensBlock : Bool} (h : WholeLine line kind opensBlock)
    (hkind : kind.standsAlone = true) : opensBlock = false := by
  cases h with
  | html | shownCode | keyword => rfl
  | hiddenComment | comment => cases hkind
  | code =>
    simp only [TokenKind.standsAlone, Bool.false_or, String.toList_ofList] at hkind
    simpa using hkind

namespace Outlined

variable {place : Position} {pieces : List Piece} {lines : List ContentLine}

/-- Where all lines with content are indented, so is the line ahead. -/
theorem pos_of_lineEnd {opensBlock : Bool} {levels : List Nat}
    (h : Outlined ⟨.lineEnd opensBlock, levels⟩ place pieces lines)
    (hlines : ∀ line ∈ lines, 0 < line.width) {gap indentation content : List Char}
    (hahead : Ahead gap indentation content) (hcontent : content ≠ [])
    (htext : textOf pieces = gap ++ (indentation ++ content)) : 0 < indentation.length := by
  cases h with
  | done hs => cases hs
  | @move _ _ _ piece pieces lines hmove hs =>
    rw [textOf_cons] at htext
    generalize textOf pieces = rest at hmove htext
    cases hmove with
    | next h hne _ _ hindents =>
      simp only [Piece.text, List.append_nil, List.append_assoc] at htext
      obtain ⟨rfl, -⟩ := h.unique hahead htext
      rw [← hindents.headD_eq]
      exact hlines _ (List.mem_append_left _ (List.mem_singleton.2 rfl))
    | raw h hne _ hdeeper =>
      simp only [Piece.text, List.append_nil, List.append_assoc] at htext
      obtain ⟨rfl, -⟩ := h.unique hahead htext
      exact Nat.lt_of_le_of_lt (Nat.zero_le _) hdeeper
    | @finish _ _ gap' indentation' h =>
      rw [Piece.text, List.append_nil, List.append_nil, List.append_nil, ← List.append_nil
        indentation', ← List.append_assoc] at htext
      rw [List.append_assoc] at htext
      exact absurd (h.unique hahead htext).2.symm hcontent

theorem pos_of_rawEnd {base : Nat} {levels : List Nat}
    (h : Outlined ⟨.rawEnd base, levels⟩ place pieces lines)
    (hlines : ∀ line ∈ lines, 0 < line.width) {gap indentation content : List Char}
    (hahead : Ahead gap indentation content) (hcontent : content ≠ [])
    (htext : textOf pieces = gap ++ (indentation ++ content)) : 0 < indentation.length := by
  cases h with
  | done hs => cases hs
  | @move _ _ _ piece pieces lines hmove hs =>
    rw [textOf_cons] at htext
    generalize hrest : textOf pieces = rest at hmove htext
    cases hmove with
    | rawNext h hne _ hdeeper =>
      simp only [Piece.text, List.append_nil, List.append_assoc] at htext
      rw [← List.append_assoc (List.take _ _), List.take_append_drop] at htext
      obtain ⟨rfl, -⟩ := h.unique hahead htext
      exact Nat.lt_of_le_of_lt (Nat.zero_le _) hdeeper
    | rawClose =>
      exact hs.pos_of_lineEnd hlines hahead hcontent (hrest.trans htext)

theorem groundedAhead (h : Outlined s place pieces lines) (hs : s.stage.endsLine = true)
    (hground : ground = [n] ∨ ground = [] ∧ ∀ line ∈ lines, 0 < line.width) :
    GroundedAhead n ground (textOf pieces) := by
  intro gap indentation content hahead hcontent htext
  rcases hground with hground | ⟨hground, hlines⟩
  · exact .inl hground
  · refine .inr ⟨hground, ?_⟩
    obtain ⟨stage, levels⟩ := s
    cases stage with
    | lineEnd => exact h.pos_of_lineEnd hlines hahead hcontent htext
    | rawEnd => exact h.pos_of_rawEnd hlines hahead hcontent htext
    | start | content | head | list | rawLine | done => cases hs

/-- The last move in the indented text closes the ground as well. -/
theorem deepen_finish (hmove : Move s piece rest t) (ht : t.stage = .done) (blanks : List Char)
    (n : Nat) (ground : List Nat) : ∃ piece' body body',
      Path (s.deepen n ground) [piece'] [] ⟨.done, []⟩ ∧
      piece'.text = indentLines blanks piece.text ∧ piece.kinds = body ++ [.eos] ∧
      piece'.kinds = body' ++ (List.replicate ground.length .outdent ++ [.eos]) ∧
      body'.map TokenKind.flat = body.map TokenKind.flat := by
  cases hmove with
  | @finish levels opensBlock lines indentation h hne =>
    have hmove : Move (State.deepen n ground ⟨.lineEnd opensBlock, levels⟩) _ [] _ := .finish h hne
    refine ⟨_, List.replicate levels.length .outdent, List.replicate levels.length .outdent,
      .cons hmove .nil, ?_, rfl, ?_, rfl⟩
    · rw [Piece.text, Piece.text, List.append_nil, List.append_nil, h.indentLines_nil]
    · change List.replicate (levels.map (· + n) ++ ground).length _ ++ _ = _
      rw [List.length_append, List.length_map, ← List.replicate_append_replicate,
        List.append_assoc]
  | start => split at ht <;> cases ht
  | bar | whole | call | element | ended | tag | literal | dot | opens | spread | colon | slash |
    code | trailing | text | interpolation | listed | closes | next | raw | rawText | rawNext |
    rawClose => cases ht

/-- The indented text is read along a path on deeper levels, which gives the same tokens, and at
    the end one more to close the ground. -/
theorem deepen (h : Outlined s place pieces lines) (ground : List Nat)
    (hstart : s.stage ≠ .start) (hdone : s.stage ≠ .done)
    (hblanks : ∀ c ∈ blanks, isInlineBlank c = true)
    (hwritten : ∀ piece ∈ pieces, piece.kinds ≠ [] → '\n' ∉ piece.written)
    (hground : ground = [blanks.length] ∨ ground = [] ∧ ∀ line ∈ lines, 0 < line.width) :
    ∃ pieces' body body', Path (s.deepen blanks.length ground) pieces' [] ⟨.done, []⟩ ∧
      textOf pieces' = indentLines blanks (textOf pieces) ∧
      pieces.flatMap Piece.kinds = body ++ [.eos] ∧
      pieces'.flatMap Piece.kinds = body' ++ (List.replicate ground.length .outdent ++ [.eos]) ∧
      body'.map TokenKind.flat = body.map TokenKind.flat := by
  induction h with
  | done hs => exact absurd hs hdone
  | @move s t place piece pieces lines hmove hs ih =>
    have hahead (hend : s.stage.endsLine = true) :
        GroundedAhead blanks.length ground (piece.text ++ textOf pieces) :=
      textOf_cons piece pieces ▸ (Outlined.move hmove hs).groundedAhead hend hground
    obtain ⟨hpiece, hpieces⟩ := List.forall_mem_cons.1 hwritten
    by_cases ht : t.stage = .done
    · cases hs with
      | done =>
        obtain ⟨piece', body, body', hpath, htext, hbody, hbody', hflat⟩ :=
          deepen_finish hmove ht blanks blanks.length ground
        exact ⟨[piece'], body, body', hpath, by simpa using htext, by simpa using hbody,
          by simpa using hbody', hflat⟩
      | move hmove' => exact absurd ht hmove'.ne_done
    · have hlater : ground = [blanks.length] ∨ ground = [] ∧ ∀ line ∈ lines, 0 < line.width :=
        hground.imp_right fun h => ⟨h.1, fun line hline => h.2 line (List.mem_append_right _ hline)⟩
      obtain ⟨pieces', body, body', hpath, htext, hbody, hbody', hflat⟩ :=
        ih hmove.ne_start ht hpieces hlater
      obtain ⟨piece', hstands, hmove'⟩ := hmove.deepen hstart ht hblanks hpiece
        (hground.imp_right And.left) hahead
      refine ⟨piece' :: pieces', piece.kinds ++ body, piece'.kinds ++ body', ?_, ?_, ?_, ?_, ?_⟩
      · refine .cons ?_ hpath
        rwa [List.append_nil, htext]
      · rw [textOf_cons, textOf_cons, htext, hstands.text_eq]
      · rw [List.flatMap_cons, hbody, List.append_assoc]
      · rw [List.flatMap_cons, hbody', List.append_assoc]
      · rw [List.map_append, List.map_append, hstands.kinds_eq, hflat]

/-- The first line that is not indented becomes the first one on the ground. -/
theorem deepen_ground {levels : List Nat} (hlevels : levels = [])
    (h : Outlined ⟨.lineEnd false, levels⟩ place pieces lines) (hne : lines ≠ [])
    (hfirst : ∀ line ∈ lines.head?, line.width = 0)
    (hblanks : ∀ c ∈ blanks, isInlineBlank c = true) (hlength : 0 < blanks.length)
    (hwritten : ∀ piece ∈ pieces, piece.kinds ≠ [] → '\n' ∉ piece.written) :
    ∃ pieces' body body', Path ⟨.lineEnd false, levels⟩ pieces' [] ⟨.done, []⟩ ∧
      textOf pieces' = indentLines blanks (textOf pieces) ∧
      pieces.flatMap Piece.kinds = .newline :: (body ++ [.eos]) ∧
      pieces'.flatMap Piece.kinds = .indent blanks.length :: (body' ++ [.outdent, .eos]) ∧
      body'.map TokenKind.flat = body.map TokenKind.flat := by
  cases h with
  | done hs => cases hs
  | @move _ t _ piece pieces lines hmove hs =>
    obtain ⟨hpiece, hpieces⟩ := List.forall_mem_cons.1 hwritten
    generalize hrest : textOf pieces = rest at hmove
    cases hmove with
    | @next _ levels' _ gap indentation content kinds h hgap hcontent _ hindents =>
      have hwidth : indentation.length = 0 := hindents.headD_eq.symm.trans (hfirst _ rfl)
      obtain rfl := List.length_eq_zero_iff.1 hwidth
      obtain ⟨pieces', body, body', hpath, htext, hbody, hbody', hflat⟩ :=
        hs.deepen [blanks.length] (by simp) (by simp) hblanks hpieces (.inl rfl)
      obtain ⟨rfl, rfl⟩ : kinds = [.newline] ∧ levels' = levels := by
        cases hindents with
        | deeper h => cases h
        | same => exact ⟨rfl, rfl⟩
        | outer hclosed => exact absurd (List.append_eq_nil_iff.1 hlevels).1 hclosed
      subst hlevels
      have hahead := h.indent hblanks hcontent
      rw [List.append_nil] at hahead
      have hmove : Move ⟨.lineEnd false, []⟩ ⟨gap, [.indent blanks.length], blanks, []⟩
          (indentLines blanks rest) (State.deepen blanks.length [blanks.length] ⟨.content, []⟩) :=
        .next hahead hgap ((sameLine_indentLines _ _).ne_nil hcontent) (by simp) (.deeper hlength)
      refine ⟨⟨gap, [.indent blanks.length], blanks, []⟩ :: pieces', body, body', .cons ?_ hpath,
        ?_, ?_, ?_, hflat⟩
      · rwa [List.append_nil, htext, hrest]
      · have hindent := h.indentLines_append hgap hcontent blanks
        rw [List.append_nil, List.nil_append] at hindent
        simp only [textOf_cons, Piece.text, List.append_nil]
        rw [htext, hrest, hindent, List.append_assoc]
      · rw [List.flatMap_cons, hbody]
        rfl
      · rw [List.flatMap_cons, hbody']
        rfl
    | finish =>
      cases hs with
      | done => exact absurd rfl hne
      | move hmove' => exact absurd rfl hmove'.ne_done

/-- A line that stands alone is read to its end, with one token, whatever stands behind it. -/
theorem exists_lineEnd (h : Outlined ⟨.content, []⟩ place pieces lines)
    (hend : isLineEnd (textOf pieces) = false)
    (hkind : ∀ kind ∈ (pieces.flatMap Piece.kinds).head?, kind.standsAlone = true) :
    ∃ front back place', pieces = front ++ back ∧ '\n' ∉ textOf front ∧
      (∀ kind ∈ front.flatMap Piece.kinds, kind.standsAlone = true) ∧
      Outlined ⟨.lineEnd false, []⟩ place' back lines ∧
      ∀ rest, SameLine (textOf back) rest →
        Path ⟨.content, []⟩ front rest ⟨.lineEnd false, []⟩ := by
  cases h with
  | done hs => cases hs
  | @move _ t _ piece pieces lines hmove hs =>
    have hplain (hwritten : piece.kinds ≠ [] → '\n' ∉ piece.written) : '\n' ∉ textOf [piece] := by
      rw [textOf_cons, textOf_nil, List.append_nil]
      exact hmove.newline_not_mem rfl hwritten
    have hpath {rest : List Char} (hsame : SameLine (textOf pieces) rest) :
        Path ⟨.content, []⟩ [piece] rest ⟨t.stage.deepen 0, []⟩ :=
      .cons (hmove.sameLine rfl hsame 0 []).2 .nil
    generalize hrest : textOf pieces = rest at hmove
    cases hmove with
    | bar hbar hline =>
      refine ⟨[_], pieces, _, rfl, hplain fun _ => hline.newline_not_mem,
        List.forall_mem_singleton.2 rfl, hs, fun rest' hsame => hpath hsame⟩
    | whole h hline =>
      have halone := hkind _ rfl
      obtain rfl := h.opensBlock_eq_false halone
      refine ⟨[_], pieces, _, rfl, hplain fun _ => hline.newline_not_mem,
        List.forall_mem_singleton.2 halone, hs, fun rest' hsame => hpath hsame⟩
    | call => cases hkind _ rfl
    | element hstarts =>
      subst hrest
      cases hs with
      | done hs => cases hs
      | @move _ t _ piece' pieces lines hmove' hs =>
        generalize hrest : textOf pieces = rest at hmove'
        cases hmove' with
        | interpolation h hline =>
          refine ⟨[.blank [], _], pieces, _, rfl, ?_, List.forall_mem_singleton.2 rfl, hs,
            fun rest' hsame => ?_⟩
          · rw [textOf_cons, textOf_cons, Piece.text_blank, Piece.text_token, textOf_nil,
              List.append_nil]
            exact hline.newline_not_mem
          · rw [hrest] at hsame
            refine .cons (.element ?_) (.cons (.interpolation h (hsame.isLine hline)) .nil)
            rw [textOf_cons, Piece.text_token, hrest] at hstarts
            have htext := (hsame.prepend _).startsElement hstarts
            rwa [textOf_cons, Piece.text_token, textOf_nil, List.append_nil]
        | ended h =>
          simp only [textOf_cons, Piece.text_blank, List.nil_append, hrest] at hend
          rw [h] at hend
          cases hend
        | tag => cases hkind _ rfl
        | literal hc =>
          cases hc <;> cases hkind _ rfl
        | dot => cases hkind _ rfl

end Outlined

/-! ### Templates -/

/-- The first line starts behind its blanks, where there is no byte order mark. -/
theorem rest_firstContent_blanks {skipped rest : List Char}
    (hskipped : ∀ c ∈ skipped, isInlineBlank c = true)
    (hrest : ∀ c ∈ rest.head?, isInlineBlank c = false)
    (hmark : (skipped ++ rest).head? ≠ some '\ufeff') :
    (firstContent (skipped ++ rest)).rest = rest := by
  unfold firstContent
  split
  · rename_i cs htext
    exact absurd (congrArg List.head? htext) hmark
  · exact (takeWhile_append_stop hskipped hrest).2

/-- What is passed over in front of the first line are blanks. -/
theorem blanks_of_firstContent {skipped rest : List Char}
    (h : (firstContent (skipped ++ rest)).rest = rest)
    (hmark : (skipped ++ rest).head? ≠ some '\ufeff') :
    (∀ c ∈ skipped, isInlineBlank c = true) ∧ ∀ c ∈ rest.head?, isInlineBlank c = false := by
  unfold firstContent at h
  split at h
  · rename_i cs htext
    rw [htext] at hmark
    exact absurd rfl hmark
  · exact run_of_dropWhile h

/-- The tokens of an indented text: the same ones up to the widths of indentations. Or behind
    lines that stand alone the first line is not indented. Then it starts a level in the indented
    text, which is closed at the end. -/
inductive Rises : List TokenKind → List TokenKind → Prop where
  | same {kinds kinds' : List TokenKind}
      (h : kinds'.map TokenKind.flat = kinds.map TokenKind.flat) : Rises kinds kinds'
  | ground {front body body' : List TokenKind} (width : Nat)
      (hfront : ∀ kind ∈ front, kind.standsAlone = true)
      (h : body'.map TokenKind.flat = body.map TokenKind.flat) :
      Rises (front ++ .newline :: (body ++ [.eos]))
        (front ++ .indent width :: (body' ++ [.outdent, .eos]))

end Lexer

/-- How many blanks the first line with content is written with, among the lines with content of
    a text. -/
def firstWidth (text : List Char) (lines : List ContentLine) : Nat :=
  if isBlankLine text then (lines.head?.map ContentLine.width).getD 0
  else (text.takeWhile isInlineBlank).length

/-- The lines behind the first one become no deeper than it when all lines are indented: the first
    line is blank, or all lines behind it are indented already, or it stands alone and the next
    line with content is not indented. -/
def KeepsFirst (text : List Char) (tokens : List Token) (lines : List ContentLine) : Prop :=
  isBlankLine text = true ∨ (∀ line ∈ lines.tail, 0 < line.width) ∨
    (∀ token ∈ tokens.head?, token.kind.standsAlone = true) ∧
      ∀ line ∈ lines.tail.head?, line.width = 0

namespace Lexer

variable {s t : State} {piece : Piece} {rest : List Char} {blanks : List Char}
  {place : Position} {pieces : List Piece} {lines : List ContentLine}

/-- A text whose lines are not indented is read from the end of a line on. -/
theorem Outlined.exists_rises (h : Outlined ⟨.lineEnd false, []⟩ place pieces lines)
    (hblanks : ∀ c ∈ blanks, isInlineBlank c = true) (hlength : 0 < blanks.length)
    (hwritten : ∀ piece ∈ pieces, piece.kinds ≠ [] → '\n' ∉ piece.written)
    (hfirst : (∀ line ∈ lines, 0 < line.width) ∨ ∀ line ∈ lines.head?, line.width = 0)
    {front : List TokenKind} (hfront : ∀ kind ∈ front, kind.standsAlone = true) :
    ∃ pieces', Path ⟨.lineEnd false, []⟩ pieces' [] ⟨.done, []⟩ ∧
      textOf pieces' = indentLines blanks (textOf pieces) ∧
      Rises (front ++ pieces.flatMap Piece.kinds) (front ++ pieces'.flatMap Piece.kinds) := by
  by_cases hpos : ∀ line ∈ lines, 0 < line.width
  · obtain ⟨pieces', body, body', hpath, htext, hbody, hbody', hflat⟩ :=
      h.deepen [] (by simp) (by simp) hblanks hwritten (.inr ⟨rfl, hpos⟩)
    refine ⟨pieces', hpath, htext, .same ?_⟩
    rw [hbody, hbody']
    simp [hflat]
  · have hne : lines ≠ [] := by
      rintro rfl
      exact hpos (List.forall_mem_nil _)
    obtain ⟨pieces', body, body', hpath, htext, hbody, hbody', hflat⟩ :=
      h.deepen_ground rfl hne (hfirst.resolve_left hpos) hblanks hlength hwritten
    refine ⟨pieces', hpath, htext, ?_⟩
    rw [hbody, hbody']
    exact .ground blanks.length hfront hflat

/-- Tokens that stand on one line each stand over pieces without line breaks. -/
theorem newline_not_mem_of_tokensFrom
    (h : ∀ token ∈ tokensFrom place pieces, token.span.start.line = token.span.stop.line) :
    ∀ piece ∈ pieces, piece.kinds ≠ [] → '\n' ∉ piece.written := by
  induction pieces generalizing place with
  | nil => exact List.forall_mem_nil _
  | cons piece pieces ih =>
    obtain ⟨hpiece, hpieces⟩ := List.forall_mem_append.1 h
    refine List.forall_mem_cons.2 ⟨fun hne => ?_, ih hpieces⟩
    obtain ⟨kind, kinds, hkinds⟩ := List.exists_cons_of_ne_nil hne
    have hline := hpiece ⟨kind, place.after piece.skipped,
      (place.after piece.skipped).after piece.written⟩
        (List.mem_map.2 ⟨kind, hkinds ▸ List.mem_cons_self, rfl⟩)
    simp only [Position.line_after] at hline
    exact List.count_eq_zero.1 (by omega)

/-- The first move in the indented text. -/
theorem exists_start {skipped : List Char} (h : (firstContent (skipped ++ rest)).rest = rest)
    (hmark : (skipped ++ rest).head? ≠ some '\ufeff')
    (hblanks : ∀ c ∈ blanks, isInlineBlank c = true) :
    isBlankLine (skipped ++ rest) = isLineEnd rest ∧
      ∃ skipped', skipped' ++ indentLines blanks rest = indented blanks (skipped ++ rest) ∧
        Move ⟨.start, []⟩ (.blank skipped') (indentLines blanks rest)
          ⟨if isLineEnd rest then .lineEnd false else .content, []⟩ := by
  obtain ⟨hskipped, hrest⟩ := blanks_of_firstContent h hmark
  have hblank : isBlankLine (skipped ++ rest) = isLineEnd rest := by
    rw [isBlankLine, (takeWhile_append_stop hskipped hrest).2]
  have hsame := sameLine_indentLines blanks rest
  refine ⟨hblank, (if isLineEnd rest then [] else blanks) ++ skipped, ?_, ?_⟩
  · rw [indented, hblank, indentLines_append (newline_not_mem_of_blank hskipped),
      List.append_assoc]
  · rw [← hsame.isLineEnd_eq]
    refine .start (rest_firstContent_blanks (List.forall_mem_append.2 ⟨?_, hskipped⟩)
      (by rwa [hsame.head?_eq]) ?_)
    · split
      · exact List.forall_mem_nil _
      · exact hblanks
    · -- In front of the first line there is a blank, or nothing as before.
      have hhead : (skipped ++ indentLines blanks rest).head? ≠ some '\ufeff' := by
        rwa [(hsame.prepend skipped).head?_eq]
      split
      · exact hhead
      · rcases blanks with _ | ⟨c, blanks⟩
        · exact hhead
        · rintro ⟨⟩
          exact absurd (hblanks _ List.mem_cons_self) (by decide)

/-- Behind a blank first line, all lines with content are indented or the first of them is not. -/
theorem pos_or_zero {width : Nat} (hwidth : width = (lines.head?.map ContentLine.width).getD 0)
    (hleast : ∀ line ∈ lines.tail, width ≤ line.width) :
    (∀ line ∈ lines, 0 < line.width) ∨ ∀ line ∈ lines.head?, line.width = 0 := by
  rcases lines with _ | ⟨first, lines⟩
  · exact .inl (List.forall_mem_nil _)
  · obtain rfl : width = first.width := hwidth
    rcases Nat.eq_zero_or_pos first.width with hzero | hpos
    · refine .inr fun line hline => ?_
      cases hline
      exact hzero
    · exact .inl (List.forall_mem_cons.2
        ⟨hpos, fun line hline => Nat.lt_of_lt_of_le hpos (hleast line hline)⟩)

/-- Behind the start of a first line with content, the indented text is read. -/
theorem Outlined.exists_rises_content (h : Outlined ⟨.content, []⟩ place pieces lines)
    (hend : isLineEnd (textOf pieces) = false)
    (hblanks : ∀ c ∈ blanks, isInlineBlank c = true) (hlength : 0 < blanks.length)
    (hwritten : ∀ piece ∈ pieces, piece.kinds ≠ [] → '\n' ∉ piece.written)
    (hfirst : (∀ line ∈ lines, 0 < line.width) ∨
      (∀ kind ∈ (pieces.flatMap Piece.kinds).head?, kind.standsAlone = true) ∧
        ∀ line ∈ lines.head?, line.width = 0) :
    ∃ pieces', Path ⟨.content, []⟩ pieces' [] ⟨.done, []⟩ ∧
      textOf pieces' = indentLines blanks (textOf pieces) ∧
      Rises (pieces.flatMap Piece.kinds) (pieces'.flatMap Piece.kinds) := by
  rcases hfirst with hpos | ⟨halone, hzero⟩
  · obtain ⟨pieces', body, body', hpath, htext, hbody, hbody', hflat⟩ :=
      h.deepen [] (by simp) (by simp) hblanks hwritten (.inr ⟨rfl, hpos⟩)
    refine ⟨pieces', hpath, htext, .same ?_⟩
    rw [hbody, hbody']
    simp [hflat]
  · obtain ⟨front, back, place', rfl, hfront, hkinds, hback, hpath⟩ := h.exists_lineEnd hend halone
    obtain ⟨back', hback', htext, hrises⟩ := hback.exists_rises hblanks hlength
      (fun piece hpiece => hwritten piece (List.mem_append_right _ hpiece)) (.inr hzero) hkinds
    have hsame := sameLine_indentLines blanks (textOf back)
    refine ⟨front ++ back', .append ?_ hback', ?_, ?_⟩
    · rw [htext, List.append_nil]
      exact hpath _ hsame
    · rw [textOf_append, textOf_append, htext, indentLines_append hfront]
    · rwa [List.flatMap_append, List.flatMap_append]

/-- The path through the indented text, from its start on. -/
theorem Outlined.exists_path (h : Outlined ⟨.start, []⟩ .first pieces lines)
    (hmark : (textOf pieces).head? ≠ some '\ufeff')
    (hblanks : ∀ c ∈ blanks, isInlineBlank c = true) (hlength : 0 < blanks.length)
    (hwritten : ∀ piece ∈ pieces, piece.kinds ≠ [] → '\n' ∉ piece.written)
    (hleast : ∀ line ∈ lines.tail, firstWidth (textOf pieces) lines ≤ line.width)
    (hfirst : KeepsFirst (textOf pieces) (tokensFrom .first pieces) lines) :
    ∃ pieces', Path ⟨.start, []⟩ pieces' [] ⟨.done, []⟩ ∧
      textOf pieces' = indented blanks (textOf pieces) ∧
      Rises (pieces.flatMap Piece.kinds) (pieces'.flatMap Piece.kinds) := by
  cases h with
  | done hs => cases hs
  | @move _ t _ piece pieces lines hmove hs =>
    obtain ⟨-, hpieces⟩ := List.forall_mem_cons.1 hwritten
    rw [textOf_cons] at hmark hleast hfirst ⊢
    generalize hrest : textOf pieces = rest at hmove hmark hleast hfirst
    cases hmove with
    | @start skipped _ hskipped =>
      rw [Piece.text_blank] at hmark hleast hfirst ⊢
      obtain ⟨hblank, skipped', htext', hmove⟩ := exists_start hskipped hmark hblanks
      suffices hmore : ∃ pieces',
          Path ⟨if isLineEnd rest then .lineEnd false else .content, []⟩ pieces' [] ⟨.done, []⟩ ∧
          textOf pieces' = indentLines blanks rest ∧
          Rises (pieces.flatMap Piece.kinds) (pieces'.flatMap Piece.kinds) by
        obtain ⟨pieces', hpath, htext, hrises⟩ := hmore
        refine ⟨.blank skipped' :: pieces', .cons ?_ hpath, ?_, hrises⟩
        · rwa [htext, List.append_nil]
        · rw [textOf_cons, Piece.text_blank, htext, htext']
      subst hrest
      cases hend : isLineEnd (textOf pieces) with
      | true =>
        rw [hend] at hs hleast hblank
        have hwidth : firstWidth (skipped ++ textOf pieces) lines =
            (lines.head?.map ContentLine.width).getD 0 := by
          rw [firstWidth, hblank]
          rfl
        exact Outlined.exists_rises hs hblanks hlength hpieces (pos_or_zero hwidth hleast)
          (List.forall_mem_nil _)
      | false =>
        rw [hend] at hs hfirst hblank
        refine Outlined.exists_rises_content hs hend hblanks hlength hpieces ?_
        rcases hfirst with hfirst | hfirst | ⟨halone, hzero⟩
        · rw [hblank] at hfirst
          cases hfirst
        · exact .inl hfirst
        · refine .inr ⟨fun kind hkind => ?_, hzero⟩
          have hkinds := map_kind_tokensFrom .first (Piece.blank skipped :: pieces)
          rw [List.flatMap_cons, Piece.blank, List.nil_append] at hkinds
          rw [← hkinds, List.head?_map] at hkind
          obtain ⟨token, htoken, rfl⟩ := Option.map_eq_some_iff.1 hkind
          exact halone token htoken

end Lexer

theorem indented_nil (text : List Char) : indented [] text = text := by
  have hlines : indentLines [] text = text := by
    induction text with
    | nil => rfl
    | cons c text ih => rw [indentLines, List.nil_append, ih, ite_self]
  rw [indented, ite_self, List.nil_append, hlines]

/-- An indented template is read, and its tokens are the same ones on deeper levels. -/
theorem exists_rises_tokenize {template : String} {tokens : List Token}
    (h : tokenize template = .ok tokens) (hmark : template.toList.head? ≠ some '\ufeff')
    (htokens : ∀ token ∈ tokens, token.span.start.line = token.span.stop.line)
    (hleast : ∀ line ∈ (contentLines template.toList tokens).tail,
      firstWidth template.toList (contentLines template.toList tokens) ≤ line.width)
    {blanks : List Char} (hblanks : ∀ c ∈ blanks, isInlineBlank c = true)
    (hfirst : blanks = [] ∨
      KeepsFirst template.toList tokens (contentLines template.toList tokens)) :
    ∃ tokens', tokenize (String.ofList (indented blanks template.toList)) = .ok tokens' ∧
      Rises (tokens.map Token.kind) (tokens'.map Token.kind) := by
  by_cases hnil : blanks = []
  · subst hnil
    refine ⟨tokens, ?_, .same rfl⟩
    rwa [indented_nil, String.ofList_toList]
  · obtain ⟨pieces, houtlined, htext, rfl⟩ := exists_outlined_textOf h
    have hfirst := hfirst.resolve_left hnil
    rw [← htext] at hmark hleast hfirst houtlined ⊢
    obtain ⟨pieces', hpath, htext', hrises⟩ := houtlined.exists_path hmark hblanks
      (List.length_pos_iff.2 hnil) (newline_not_mem_of_tokensFrom htokens) hleast hfirst
    refine ⟨_, by rw [← htext']; exact tokenize_of_path hpath, ?_⟩
    rwa [map_kind_tokensFrom, map_kind_tokensFrom]

end PugLint
