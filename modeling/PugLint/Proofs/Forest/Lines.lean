import PugLint.Proofs.Forest.Heads

/-!
# Reading written lines

The lines of a forest are read one by one: the indentation of a line tells how many
levels it opens or closes, and its head is read as it was written.

* `Layout`: lines with the indentations of the levels that are open;
* `Forest.Written.layout`: the written lines of a forest are laid out by depth;
* `readLines_layout`: lines that are laid out are read as the tokens of their depths
  and heads;
* `tokenize_written`: a template that writes a forest has the tokens of the forest.
-/

namespace PugLint

open Lexer

/-! ### Lines with their indentations -/

/-- A text writes lines that follow a line with some open levels: the indentations
    of the levels, the deepest first, where the outermost lines have none. -/
inductive Layout : List (List Char) → List (Nat × Head) → List Char → Prop where
  /-- No more lines. -/
  | nil (levels : List (List Char)) {trailing : List Char} (htrailing : IsTrailing trailing) :
      Layout levels [] trailing
  /-- A line that opens a level. -/
  | deeper {levels : List (List Char)} {indentation before line behind : List Char} {head : Head}
      {lines : List (Nat × Head)} (hbefore : IsBreak before)
      (hdeeper : Deeper (levels.headD []) indentation) (hline : head.Written line)
      (hbehind : Layout (indentation :: levels) lines behind) :
      Layout levels ((levels.length + 1, head) :: lines) (before ++ indentation ++ line ++ behind)
  /-- A line of an open level, above which all levels are closed. -/
  | level (closed : List (List Char)) {levels : List (List Char)} {before line behind : List Char}
      {head : Head} {lines : List (Nat × Head)} (hbefore : IsBreak before)
      (hline : head.Written line) (hbehind : Layout levels lines behind) :
      Layout (closed ++ levels) ((levels.length, head) :: lines)
        (before ++ levels.headD [] ++ line ++ behind)

/-- The lines of a forest behind a line of their level or of a deeper one, and the
    lines of a forest behind the line of the element that it is nested in. What
    follows may find any levels open above. -/
theorem Forest.Written.layout {indentation text : List Char} {forest : Forest}
    (h : forest.Written indentation text) {lines : List (Nat × Head)} {behind : List Char} :
    (∀ levels closed : List (List Char), levels.headD [] = indentation →
      (∀ closed, Layout (closed ++ levels) lines behind) →
      Layout (closed ++ levels) (forest.lines levels.length ++ lines) (text ++ behind)) ∧
    (∀ levels : List (List Char), Deeper (levels.headD []) indentation →
      (∀ closed, Layout (closed ++ levels) lines behind) →
      Layout levels (forest.lines (levels.length + 1) ++ lines) (text ++ behind)) := by
  induction h generalizing lines behind with
  | nil indentation => exact ⟨fun levels closed _ h => h closed, fun levels _ h => h []⟩
  | cons hbefore hline hinner hbelow hbehind ihbelow ihbehind =>
    rename_i indentation inner before line below after head children rest
    -- The lines below the first one and behind those, when its level has been opened.
    have hrest (levels : List (List Char)) (hlevels : levels.headD [] = indentation)
        (h : ∀ closed, Layout (closed ++ levels) lines behind) :
        Layout levels (children.lines (levels.length + 1) ++ (rest.lines levels.length ++ lines))
          (below ++ (after ++ behind)) := by
      refine ihbelow.2 levels (hlevels ▸ hinner) fun closed => ?_
      exact ihbehind.1 levels closed hlevels h
    refine ⟨fun levels closed hlevels h => ?_, fun levels hdeeper h => ?_⟩
    · have := Layout.level closed hbefore hline (hrest levels hlevels h)
      rw [hlevels] at this
      simpa [Forest.lines] using this
    · have hopen : ∀ closed, Layout (closed ++ indentation :: levels) lines behind := by
        intro closed
        have := h (closed ++ [indentation])
        simpa using this
      have := Layout.deeper hbefore hdeeper hline (hrest (indentation :: levels) rfl hopen)
      simpa [Forest.lines] using this

/-! ### Reading lines -/

namespace Lexer

/-- Behind a line break a line starts. -/
theorem seekContent_break {before : List Char} (h : IsBreak before) (line : Nat)
    (start rest : List Char) :
    ∃ line', seekContent line start (before ++ rest) = seekContent line' rest rest := by
  induction h generalizing line start rest with
  | lf => exact ⟨line + 1, rfl⟩
  | crlf => exact ⟨line + 1, rfl⟩
  | blankLine hfirst hblanks hsecond ihfirst ihsecond =>
    rename_i first blanks second
    obtain ⟨line₁, h₁⟩ := ihfirst line start (blanks ++ (second ++ rest))
    obtain ⟨line₂, h₂⟩ := ihsecond line₁ (blanks ++ (second ++ rest)) rest
    refine ⟨line₂, ?_⟩
    rw [List.append_assoc, List.append_assoc, h₁, seekContent_blanks hblanks, h₂]

theorem isInlineBlank_eq_false {c : Char} (h : isNameEdge c = true) :
    isInlineBlank c = false := by
  rw [isInlineBlank, Bool.or_eq_false_iff, beq_eq_false_iff_ne, beq_eq_false_iff_ne]
  refine ⟨?_, ?_⟩
  all_goals
    rintro rfl
    exact absurd h (by decide)

/-- The next line with content starts behind a line break, blank lines and its
    indentation. -/
theorem nextLine_edge {before indentation : List Char} (hbefore : IsBreak before)
    (hblanks : ∀ c ∈ indentation, isInlineBlank c = true) {c : Char}
    (hedge : isNameEdge c = true) (p : Position) (cs : List Char) :
    ∃ line, nextLine ⟨p, before ++ (indentation ++ c :: cs)⟩ = (line, indentation, c :: cs) := by
  have hinline := isInlineBlank_eq_false hedge
  have hstop (line : Nat) (start : List Char) :
      seekContent line start (c :: cs) = (line, start) := by
    unfold seekContent
    split
    · rename_i heq
      cases heq
    · rename_i heq
      cases heq
      exact absurd hedge (by decide)
    · rename_i heq
      cases heq
      exact absurd hedge (by decide)
    · rename_i heq
      cases heq
      rw [hinline]
      rfl
  obtain ⟨line, hline⟩ := seekContent_break hbefore p.line
    (before ++ (indentation ++ c :: cs)) (indentation ++ c :: cs)
  have hhead : ∀ d ∈ (c :: cs).head?, isInlineBlank d = false := by
    intro d hd
    cases hd
    exact hinline
  obtain ⟨htake, hdrop⟩ := takeWhile_append_stop hblanks hhead
  refine ⟨line, ?_⟩
  simp only [nextLine, hline, seekContent_blanks hblanks, hstop, htake, hdrop]

theorem nextLine_trailing {before blanks : List Char} (hbefore : IsBreak before)
    (hblanks : ∀ c ∈ blanks, isInlineBlank c = true) (p : Position) :
    ∃ line, nextLine ⟨p, before ++ blanks⟩ = (line, blanks, []) := by
  obtain ⟨line, hline⟩ := seekContent_break hbefore p.line (before ++ blanks) blanks
  have hstop : seekContent line blanks blanks = (line, blanks) := by
    have := seekContent_blanks hblanks line blanks []
    rwa [List.append_nil] at this
  refine ⟨line, ?_⟩
  simp only [nextLine, hline, hstop, List.takeWhile_eq_self_iff.2 hblanks,
    List.dropWhile_eq_nil_iff.2 hblanks]

/-! ### Indentations -/

/-- Each of some levels is deeper than the next one. -/
def Nested : List (List Char) → Prop
  | [] => True
  | level :: levels => Deeper (levels.headD []) level ∧ Nested levels

theorem length_lt_of_deeper {indentation inner : List Char} (h : Deeper indentation inner) :
    indentation.length < inner.length := by
  obtain ⟨blanks, hne, -, rfl⟩ := h
  rw [List.length_append]
  exact Nat.lt_add_of_pos_right (List.length_pos_iff.2 hne)

theorem Nested.headD_blank {levels : List (List Char)} (h : Nested levels) :
    ∀ c ∈ levels.headD [], isInlineBlank c = true := by
  induction levels with
  | nil => exact fun c hc => absurd hc List.not_mem_nil
  | cons level levels ih =>
    obtain ⟨⟨blanks, -, hblanks, heq⟩, hnested⟩ := h
    intro c hc
    rw [List.headD_cons, heq] at hc
    rcases List.mem_append.1 hc with hc | hc
    · exact ih hnested c hc
    · exact hblanks c hc

theorem Nested.of_append {closed levels : List (List Char)} (h : Nested (closed ++ levels)) :
    Nested levels := by
  induction closed with
  | nil => exact h
  | cons level closed ih => exact ih h.2

/-- The level that is reached is less deep than those above it. -/
theorem Nested.headD_length_lt {closed levels : List (List Char)} (h : Nested (closed ++ levels)) :
    ∀ level ∈ closed, (levels.headD []).length < level.length := by
  induction closed with
  | nil => exact fun _ hm => absurd hm List.not_mem_nil
  | cons first closed ih =>
    refine List.forall_mem_cons.2 ⟨?_, ih h.2⟩
    have hfirst := length_lt_of_deeper h.1
    cases closed with
    | nil => exact hfirst
    | cons second closed => exact (ih h.2 second List.mem_cons_self).trans hfirst

theorem headD_map_length (levels : List (List Char)) :
    (levels.map List.length).headD 0 = (levels.headD []).length := by
  cases levels <;> rfl

/-- The levels above the one that is reached are closed. -/
theorem Nested.closeLevels_eq {closed levels : List (List Char)} (h : Nested (closed ++ levels)) :
    closeLevels (levels.headD []).length ((closed ++ levels).map List.length) =
      (levels.map List.length, closed.length) := by
  rw [List.map_append, closeLevels_append (List.forall_mem_map.2 h.headD_length_lt)
    (headD_map_length levels).symm, List.length_map]

/-- A line of an open level closes those above it. -/
theorem readIndentation_level {closed levels : List (List Char)} (h : Nested (closed ++ levels))
    (line : Nat) :
    ∃ tokens, readIndentation ((closed ++ levels).map List.length) line (levels.headD []) =
        .ok (tokens, levels.map List.length) ∧
      tokens.map (·.kind.plain) = depthKinds (closed ++ levels).length levels.length := by
  let start : Cursor := ⟨⟨line, 1⟩, levels.headD []⟩
  cases closed with
  | nil =>
    refine ⟨[start.token .newline (levels.headD [])], ?_, ?_⟩
    · simp only [readIndentation, List.nil_append, headD_map_length, Nat.lt_irrefl, if_false, start]
    · rw [List.nil_append, depthKinds, if_neg (Nat.lt_irrefl _), if_neg (Nat.lt_irrefl _)]
      rfl
  | cons level closed =>
    have hlt := h.headD_length_lt level List.mem_cons_self
    have hcurrent : (((level :: closed) ++ levels).map List.length).headD 0 = level.length := rfl
    refine ⟨List.replicate (closed.length + 1) (start.token .outdent (levels.headD [])), ?_, ?_⟩
    · simp only [readIndentation, hcurrent, if_neg (Nat.lt_asymm hlt), if_pos hlt,
        h.closeLevels_eq, headD_map_length, beq_self_eq_true, if_true, List.length_cons, start]
    · have hdepth : levels.length < ((level :: closed) ++ levels).length := by
        rw [List.length_append, List.length_cons]
        omega
      have hcount : ((level :: closed) ++ levels).length - levels.length = closed.length + 1 := by
        rw [List.length_append, List.length_cons]
        omega
      rw [depthKinds, if_neg (Nat.lt_asymm hdepth), if_pos hdepth, hcount, List.map_replicate]
      rfl

/-- A deeper line opens a level. -/
theorem readIndentation_deeper {levels : List (List Char)} {indentation : List Char}
    (h : Deeper (levels.headD []) indentation) (line : Nat) :
    ∃ tokens, readIndentation (levels.map List.length) line indentation =
        .ok (tokens, indentation.length :: levels.map List.length) ∧
      tokens.map (·.kind.plain) = depthKinds levels.length (levels.length + 1) := by
  have hlt := length_lt_of_deeper h
  rw [← headD_map_length] at hlt
  refine ⟨_, if_pos hlt, ?_⟩
  rw [depthKinds, if_pos (Nat.lt_succ_self _)]
  rfl

/-! ### Templates -/

theorem isLineEnd_break {before : List Char} (h : IsBreak before) (rest : List Char) :
    isLineEnd (before ++ rest) = true := by
  induction h generalizing rest with
  | lf => rfl
  | crlf => rfl
  | blankLine _ _ _ ihfirst _ =>
    rw [List.append_assoc, List.append_assoc]
    exact ihfirst _

theorem ne_nil_of_isBreak {before : List Char} (h : IsBreak before) : before ≠ [] := by
  induction h with
  | lf => exact nofun
  | crlf => exact nofun
  | blankLine _ _ _ ihfirst _ => simp [ihfirst]

theorem isLineEnd_trailing {trailing : List Char} (h : IsTrailing trailing) :
    isLineEnd trailing = true := by
  rcases h with rfl | ⟨before, blanks, hbefore, -, rfl⟩
  · rfl
  · exact isLineEnd_break hbefore blanks

theorem isLineEnd_layout {levels : List (List Char)} {lines : List (Nat × Head)}
    {text : List Char} (h : Layout levels lines text) : isLineEnd text = true := by
  cases h with
  | nil _ htrailing => exact isLineEnd_trailing htrailing
  | deeper hbefore =>
    simp only [List.append_assoc]
    exact isLineEnd_break hbefore _
  | level _ hbefore =>
    simp only [List.append_assoc]
    exact isLineEnd_break hbefore _

/-- The tokens of a head have no widths. -/
theorem map_plain_kinds (head : Head) : head.kinds.map TokenKind.plain = head.kinds := by
  have hliterals : head.literals.map (TokenKind.plain ∘ Literal.kind) =
      head.literals.map Literal.kind :=
    List.map_congr_left fun literal _ => by cases literal <;> rfl
  have hlist : (listKinds head.attributes).map TokenKind.plain = listKinds head.attributes := by
    cases head.attributes with
    | nil => rfl
    | cons entry entries => simp [listKinds, TokenKind.plain, Function.comp_def]
  have htext : ((head.text.map TokenKind.text).toList).map TokenKind.plain =
      (head.text.map TokenKind.text).toList := by
    cases head.text <;> rfl
  rw [Head.kinds, List.map_cons, List.map_append, List.map_append, List.map_map, hliterals, hlist,
    htext]
  rfl

theorem map_plain_finish (levels : List Nat) (cursor : Cursor) :
    (finish levels cursor).map (·.kind.plain) =
      List.replicate levels.length .outdent ++ [.eos] := by
  simp [finish, Cursor.token, TokenKind.plain, List.map_const']

theorem exists_cons_of_written {head : Head} {line : List Char} (h : head.Written line) :
    ∃ c cs, line = c :: cs ∧ isNameEdge c = true := by
  obtain ⟨hhead, -⟩ := h
  obtain ⟨c, cs, hname, hedge⟩ := IsTagName.exists_cons hhead.name
  rw [hname]
  exact ⟨c, _, rfl, hedge⟩

/-- One line is read: its indentation, its head, and the lines behind it. -/
theorem readLines_step {levels levels' : List Nat} {before indentation line behind : List Char}
    {head : Head} {depth others : List TokenKind} {fuel : Nat} (hbefore : IsBreak before)
    (hblanks : ∀ c ∈ indentation, isInlineBlank c = true) (hline : head.Written line)
    (hdepth : ∀ number, ∃ tokens, readIndentation levels number indentation =
      .ok (tokens, levels') ∧ tokens.map (·.kind.plain) = depth)
    (hend : isLineEnd behind = true)
    (hothers : ∀ p, ∃ tokens, readLines fuel levels' false ⟨p, behind⟩ = .ok tokens ∧
      tokens.map (·.kind.plain) = others) (p : Position) :
    ∃ tokens, readLines (fuel + 1) levels false ⟨p, before ++ indentation ++ line ++ behind⟩ =
        .ok tokens ∧
      tokens.map (·.kind.plain) = depth ++ head.kinds ++ others := by
  obtain ⟨c, cs, rfl, hedge⟩ := exists_cons_of_written hline
  have htext : before ++ indentation ++ c :: cs ++ behind =
      before ++ (indentation ++ c :: (cs ++ behind)) := by simp
  have hne : (before ++ (indentation ++ c :: (cs ++ behind))).isEmpty = false := by simp
  obtain ⟨number, hnext⟩ := nextLine_edge hbefore hblanks hedge p (cs ++ behind)
  obtain ⟨indents, hindents, hdepthKinds⟩ := hdepth number
  obtain ⟨⟨tokens, ⟨place, _⟩, _⟩, hread, hkinds, rfl, rfl⟩ :=
    readLine_written hline hend ((⟨number, 1⟩ : Position).after indentation)
  obtain ⟨more, hmore, hmoreKinds⟩ := hothers place
  refine ⟨indents ++ tokens ++ more, ?_, ?_⟩
  · rw [htext, readLines]
    simp only [Bool.false_eq_true, if_false, hnext, hne, List.isEmpty_cons, Cursor.advance,
      hindents, bind, Except.bind]
    rw [List.cons_append] at hread
    simp only [hread, hmore]
    rfl
  · have htokens : tokens.map (·.kind.plain) = head.kinds := by
      rw [← map_plain_kinds head, ← hkinds, List.map_map]
      rfl
    rw [List.map_append, List.map_append, hdepthKinds, htokens, hmoreKinds]

/-- Lines are read as the tokens of their depths and heads. -/
theorem readLines_layout {levels : List (List Char)} {lines : List (Nat × Head)}
    {text : List Char} (h : Layout levels lines text) (hnested : Nested levels) {fuel : Nat}
    (hfuel : text.length < fuel) (p : Position) :
    ∃ tokens, readLines fuel (levels.map List.length) false ⟨p, text⟩ = .ok tokens ∧
      tokens.map (·.kind.plain) = lineKinds levels.length lines := by
  obtain ⟨fuel, rfl⟩ : ∃ n, fuel = n + 1 := ⟨fuel - 1, by omega⟩
  induction h generalizing fuel p with
  | nil levels htrailing =>
    rename_i trailing
    have hcount : levels.length = (levels.map List.length).length := by rw [List.length_map]
    rw [lineKinds, hcount]
    rcases htrailing with rfl | ⟨before, blanks, hbefore, hblanks, rfl⟩
    · exact ⟨_, rfl, map_plain_finish _ _⟩
    · obtain ⟨number, hnext⟩ := nextLine_trailing hbefore hblanks p
      refine ⟨_, ?_, map_plain_finish _ ((⟨⟨number, 1⟩, blanks ++ []⟩ : Cursor).advance blanks [])⟩
      have hne : (before ++ blanks).isEmpty = false := by
        simp [ne_nil_of_isBreak hbefore]
      rw [readLines]
      simp only [Bool.false_eq_true, if_false, hnext, hne, List.isEmpty_nil, if_true,
        List.nil_append]
  | deeper hbefore hdeeper hline hbehind ih =>
    rename_i levels indentation before line behind head lines
    have hbound : behind.length < fuel := by
      have := List.length_pos_iff.2 (ne_nil_of_isBreak hbefore)
      simp only [List.length_append] at hfuel
      omega
    obtain ⟨fuel, rfl⟩ : ∃ n, fuel = n + 1 := ⟨fuel - 1, by omega⟩
    have hinner : Nested (indentation :: levels) := ⟨hdeeper, hnested⟩
    exact readLines_step hbefore hinner.headD_blank hline (readIndentation_deeper hdeeper)
      (isLineEnd_layout hbehind) (fun p => ih hinner p fuel hbound) p
  | level closed hbefore hline hbehind ih =>
    rename_i levels before line behind head lines
    have hbound : behind.length < fuel := by
      have := List.length_pos_iff.2 (ne_nil_of_isBreak hbefore)
      simp only [List.length_append] at hfuel
      omega
    obtain ⟨fuel, rfl⟩ : ∃ n, fuel = n + 1 := ⟨fuel - 1, by omega⟩
    have houter : Nested levels := hnested.of_append
    exact readLines_step hbefore houter.headD_blank hline (readIndentation_level hnested)
      (isLineEnd_layout hbehind) (fun p => ih houter p fuel hbound) p

/-- The first line starts at its first character that is no blank. -/
theorem firstContent_append {blanks rest : List Char} (h : ∀ c ∈ blanks, isInlineBlank c = true)
    (hrest : ∀ c ∈ rest.head?, isInlineBlank c = false ∧ c ≠ '\ufeff') :
    ∃ place, firstContent (blanks ++ rest) = ⟨place, rest⟩ := by
  have hmark : ∀ cs, blanks ++ rest ≠ '\ufeff' :: cs := by
    intro cs heq
    cases blanks with
    | nil =>
      rw [List.nil_append] at heq
      rw [heq] at hrest
      exact (hrest _ rfl).2 rfl
    | cons c blanks =>
      have := h c List.mem_cons_self
      rw [(List.cons.inj heq).1] at this
      exact absurd this (by decide)
  obtain ⟨htake, hdrop⟩ := takeWhile_append_stop h fun c hc => (hrest c hc).1
  unfold firstContent
  split
  · rename_i cs heq
    exact absurd heq (hmark _)
  · simp only [htake, hdrop, Cursor.advance]
    exact ⟨_, rfl⟩

end Lexer

theorem Forest.Written.layout_template {forest : Forest} {text trailing : List Char}
    (h : forest.Written [] text) (htrailing : IsTrailing trailing) (closed : List (List Char)) :
    Layout closed (forest.lines 0) (text ++ trailing) := by
  have := h.layout.1 [] closed rfl fun closed => Layout.nil (closed ++ []) htrailing
  simpa using this

/-- A template that writes a forest is read, and its tokens are those of the forest,
    behind a line start if there are blank lines in front. -/
theorem tokenize_written {forest : Forest} {text : List Char} (h : forest.WrittenTemplate text) :
    ∃ tokens, tokenize (String.ofList text) = .ok tokens ∧
      (tokens.map (·.kind.plain) = forest.kinds ∨
        tokens.map (·.kind.plain) = .newline :: forest.kinds) := by
  rw [tokenize, String.toList_ofList]
  cases h with
  | direct hline hinner hbelow hbehind htrailing =>
    rename_i line inner below behind trailing head children rest
    have hlayout : Layout [] (children.lines 1 ++ rest.lines 0) (below ++ (behind ++ trailing)) :=
      hbelow.layout.2 [] hinner fun closed => by
        rw [List.append_nil]
        exact hbehind.layout_template htrailing closed
    have hend := isLineEnd_layout hlayout
    obtain ⟨c, cs, rfl, hedge⟩ := exists_cons_of_written hline
    have hstart : ∃ place, firstContent (c :: (cs ++ (below ++ (behind ++ trailing)))) =
        ⟨place, c :: (cs ++ (below ++ (behind ++ trailing)))⟩ := by
      refine firstContent_append (fun _ h => absurd h List.not_mem_nil) fun d hd => ?_
      cases hd
      refine ⟨isInlineBlank_eq_false hedge, ?_⟩
      rintro rfl
      exact absurd hedge (by decide)
    obtain ⟨place, hplace⟩ := hstart
    obtain ⟨⟨tokens, ⟨place', _⟩, _⟩, hread, hkinds, rfl, rfl⟩ :=
      readLine_written hline hend place
    have hbound : (below ++ (behind ++ trailing)).length <
        (c :: cs ++ below ++ behind ++ trailing).length + 1 := by
      simp only [List.length_append]
      omega
    obtain ⟨others, hothers, hotherKinds⟩ := readLines_layout hlayout trivial hbound place'
    refine ⟨tokens ++ others, ?_, .inl ?_⟩
    · rw [List.cons_append] at hread
      simp only [List.append_assoc, List.cons_append, Lexer.read, hplace, isLineEnd_eq_false hedge,
        Bool.false_eq_true, if_false, hread, bind, Except.bind]
      simp only [List.append_assoc, List.cons_append, List.map_nil] at hothers
      rw [hothers]
      rfl
    · have htokens : tokens.map (·.kind.plain) = head.kinds := by
        rw [← map_plain_kinds head, ← hkinds, List.map_map]
        rfl
      rw [List.map_append, htokens, hotherKinds]
      rfl
  | behindBlanks hblanks htext htrailing =>
    rename_i blanks text trailing head children rest
    have hlayout := htext.layout_template htrailing []
    have hend := isLineEnd_layout hlayout
    have hcontent : ∀ c ∈ (text ++ trailing).head?, isInlineBlank c = false ∧ c ≠ '\ufeff' := by
      intro c hc
      rcases eq_of_isLineEnd hend with heq | ⟨cs, heq⟩ | ⟨cs, heq⟩
      all_goals
        rw [heq] at hc
        cases hc
      all_goals decide
    obtain ⟨place, hplace⟩ := firstContent_append hblanks hcontent
    have hbound : (text ++ trailing).length < (blanks ++ (text ++ trailing)).length + 1 := by
      simp only [List.length_append]
      omega
    obtain ⟨others, hothers, hotherKinds⟩ := readLines_layout hlayout trivial hbound place
    refine ⟨others, ?_, .inr ?_⟩
    · rw [List.append_assoc, Lexer.read, hplace]
      simp only [hend, if_true, bind, Except.bind]
      rw [List.map_nil] at hothers
      rw [hothers]
      rfl
    · rw [hotherKinds]
      rfl

end PugLint
