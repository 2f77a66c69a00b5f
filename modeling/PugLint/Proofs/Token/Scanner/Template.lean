import PugLint.Proofs.Token.Scanner.Lines

/-!
# Scans of templates

A scan goes from the end of a line over blank lines to the next line with content, opens and closes
levels by its indentation, and takes deeper lines as raw text where a block of it has been opened.
So every scan gives what the reader reads: it ends, and nothing goes wrong in it.

* `Scanner.seekLine_of`, `Scanner.nextIndent_of`: the next line with content;
* `Scanner.lexWidth_of`, `Scanner.lexRaw_of`: indentations, and blocks of raw text;
* `Scanner.run_eq_tokenize`: a whole template.
-/

namespace PugLint

namespace Scanner

open Text Lexer

variable {text lines indentation content : List Char} {cursor stop : Cursor} {levels : List Nat}
  {tokens : List Token}

/-! ### The next line with content -/

/-- Behind the end of a line stands a line break, and then the next line with content. -/
theorem exists_break_ahead {line : Nat} (h : nextLine cursor = (line, indentation, content))
    (hend : isLineEnd cursor.rest = true) (hne : cursor.rest ≠ []) :
    ∃ ending lines, cursor.rest = ending ++ (lines ++ (indentation ++ content)) ∧
      (ending = ['\n'] ∨ ending = ['\r', '\n']) ∧ Ahead lines indentation content ∧
      cursor.place.after (ending ++ lines) = ⟨line, 1⟩ := by
  obtain ⟨passed, hrest, ⟨hlines, hblank, hmarked⟩, hpassed, hplace⟩ := ahead_nextLine h hend hne
  cases hlines with
  | nil => exact absurd rfl hpassed
  | @cons blanks ending more hblanks hending hmore =>
    -- No blank stands at the end of a line.
    obtain rfl : blanks = [] := by
      rcases blanks with _ | ⟨c, blanks⟩
      · rfl
      · have hc := hblanks c List.mem_cons_self
        rw [hrest, List.cons_append, List.cons_append,
          isLineEnd_cons_of_isInlineBlank hc] at hend
        cases hend
    rw [List.nil_append] at hrest hplace
    rw [List.append_assoc] at hrest
    exact ⟨ending, more, hrest, hending, ⟨hmore, hblank, hmarked⟩, hplace⟩

section Blanks

variable {blanks rest : List Char}

theorem measureIndent_append (h : blanks ++ rest <:+ text)
    (hblanks : ∀ c ∈ blanks, isInlineBlank c = true)
    (hhead : ∀ c ∈ rest.head?, isInlineBlank c = false) :
    measureIndent text (indexOf text (blanks ++ rest)) = blanks.length := by
  rw [measureIndent_indexOf h, (takeWhile_append_stop hblanks hhead).1]

theorem indexOf_add_length (h : blanks ++ rest <:+ text)
    (hblanks : ∀ c ∈ blanks, isInlineBlank c = true) :
    indexOf text (blanks ++ rest) + blanks.length = indexOf text rest := by
  rw [indexOf_behind h, byteLength_of_forall isAscii_isInlineBlank hblanks]

theorem skip_length_of (levels : List Nat) (tokens : List Token) (h : Stands text cursor)
    (hrest : cursor.rest = blanks ++ rest) (hblanks : ∀ c ∈ blanks, isInlineBlank c = true) :
    (State.of text cursor levels tokens).skip blanks.length =
      State.of text (cursor.advance blanks rest) levels tokens :=
  skip_of levels tokens h hrest (fun hmem => ne_newline_of_isInlineBlank (hblanks _ hmem) rfl)
    (byteLength_of_forall isAscii_isInlineBlank hblanks)

/-- A scan measures the blanks that it stands in front of, and sees whether a line ends there. -/
theorem measure_of (levels : List Nat) (tokens : List Token) (h : Stands text cursor)
    (hrest : cursor.rest = blanks ++ rest) (hblanks : ∀ c ∈ blanks, isInlineBlank c = true)
    (hhead : ∀ c ∈ rest.head?, isInlineBlank c = false) :
    measureIndent text (State.of text cursor levels tokens).index = blanks.length ∧
      endsLine text ((State.of text cursor levels tokens).index + blanks.length) =
        isLineEnd rest := by
  have hindex : (State.of text cursor levels tokens).index = indexOf text cursor.rest := rfl
  have hsuffix := h.suffix
  rw [hrest] at hsuffix
  rw [hindex, hrest, indexOf_add_length hsuffix hblanks,
    endsLine_indexOf ((List.suffix_append blanks rest).trans hsuffix)]
  exact ⟨measureIndent_append hsuffix hblanks hhead, rfl⟩

end Blanks

theorem head?_break {ending rest : List Char} (h : ending = ['\n'] ∨ ending = ['\r', '\n']) :
    ∀ c ∈ (ending ++ rest).head?, isInlineBlank c = false := by
  rcases h with rfl | rfl <;> (rintro c ⟨⟩; rfl)

theorem isLineEnd_break {ending : List Char} (h : ending = ['\n'] ∨ ending = ['\r', '\n'])
    (rest : List Char) : isLineEnd (ending ++ rest) = true := by
  rcases h with rfl | rfl <;> rfl

theorem head?_content (h : content = [] ∨ Marked content) :
    ∀ c ∈ content.head?, isInlineBlank c = false := by
  rcases h with rfl | h
  · nofun
  · exact h.2

theorem isEmpty_of_marked (h : Marked content) : content.isEmpty = false := by
  rw [List.isEmpty_eq_false_iff]
  rintro rfl
  cases h.1

theorem length_le_indexOf_nil (text : List Char) : (bytes text).length ≤ indexOf text [] :=
  Nat.not_lt.1 fun hlt => (indexOf_lt List.nil_suffix).1 hlt rfl

/-- From the end of a line a scan goes over blank lines to the next one with content. -/
theorem seekLine_of (levels : List Nat) (tokens : List Token) {ending : List Char}
    (h : Stands text cursor) (hrest : cursor.rest = ending ++ (lines ++ (indentation ++ content)))
    (hending : ending = ['\n'] ∨ ending = ['\r', '\n']) (hahead : Ahead lines indentation content) :
    seekLine text (State.of text cursor levels tokens) =
      some (if content.isEmpty then
          let stop := cursor.advance (ending ++ lines ++ indentation) content
          (none, State.of text stop levels tokens)
        else
          let start := cursor.advance (ending ++ lines) (indentation ++ content)
          (some indentation.length, State.of text start levels tokens)) := by
  obtain ⟨hlines, hblank, hmarked⟩ := hahead
  have hindex (cursor : Cursor) : (State.of text cursor levels tokens).index =
      indexOf text cursor.rest := rfl
  induction hlines generalizing cursor ending with
  | nil =>
    have hrest : cursor.rest = ending ++ (indentation ++ content) := hrest
    have hnext := h.advance hrest
    obtain ⟨hwidth, hends⟩ := measure_of levels tokens hnext rfl hblank (head?_content hmarked)
    have hskip := skip_length_of levels tokens hnext rfl hblank
    rw [seekLine_def, lineBreak_of h hrest hending, some_bind, hwidth]
    dsimp only
    rw [hends, hskip, advance_advance, List.append_nil]
    rcases hmarked with rfl | hmarked
    · exact (if_pos rfl).trans (if_pos (length_le_indexOf_nil text))
    · rw [hmarked.1, isEmpty_of_marked hmarked]
      rfl
  | @cons blanks ending' more hblanks hending' hmore ih =>
    have hrest : cursor.rest =
        ending ++ (blanks ++ (ending' ++ (more ++ (indentation ++ content)))) := by
      rw [hrest, List.append_assoc, List.append_assoc]
    have hnext := h.advance hrest
    obtain ⟨hwidth, hends⟩ := measure_of levels tokens hnext rfl hblanks (head?_break hending')
    have hskip := skip_length_of levels tokens hnext rfl hblanks
    have hbehind := hnext.advance (rfl : _ = blanks ++ _)
    have hinside : ¬(bytes text).length ≤ (State.of text
        ((cursor.advance ending (blanks ++ (ending' ++ (more ++ (indentation ++ content))))).advance
          blanks (ending' ++ (more ++ (indentation ++ content)))) levels tokens).index := by
      rw [Nat.not_le, hindex, indexOf_lt hbehind.suffix]
      rcases hending' with rfl | rfl <;> exact List.cons_ne_nil _ _
    rw [seekLine_def, lineBreak_of h hrest hending, some_bind, hwidth]
    dsimp only
    rw [hends, isLineEnd_break hending', if_pos rfl, hskip, if_neg hinside, ih hbehind rfl hending']
    simp only [advance_advance, List.append_assoc]

/-- At the end of a line, a look ahead goes over the line break. -/
theorem index_behind_break {ending rest : List Char} (h : ending ++ rest <:+ text)
    (hending : ending = ['\n'] ∨ ending = ['\r', '\n']) :
    ∃ c, ¬(bytes text).length ≤ indexOf text (ending ++ rest) ∧
      byte? text (indexOf text (ending ++ rest)) = some c ∧
      (if c == '\r' then indexOf text (ending ++ rest) + 1 else indexOf text (ending ++ rest)) + 1 =
        indexOf text rest := by
  have hne : ending ++ rest ≠ [] := by
    rcases hending with rfl | rfl <;> exact List.cons_ne_nil _ _
  have hinside := Nat.not_le.2 ((indexOf_lt h).2 hne)
  have hbyte := byte?_indexOf h
  rcases hending with rfl | rfl
  · exact ⟨'\n', hinside, hbyte, indexOf_cons (by decide) h⟩
  · refine ⟨'\r', hinside, hbyte, ?_⟩
    have hfeed : '\n' :: rest <:+ text := suffix_of_cons h
    have hfirst : indexOf text ('\r' :: '\n' :: rest) + 1 = _ := indexOf_cons (by decide) h
    rw [← indexOf_cons (by decide) hfeed, ← hfirst]
    rfl

/-- The next line with content is measured ahead. -/
theorem nextIndent_of {ending : List Char}
    (h : ending ++ (lines ++ (indentation ++ content)) <:+ text)
    (hending : ending = ['\n'] ∨ ending = ['\r', '\n']) (hahead : Ahead lines indentation content) :
    nextIndent text (indexOf text (ending ++ (lines ++ (indentation ++ content)))) =
      some (if content.isEmpty then none else some indentation.length) := by
  obtain ⟨hlines, hblank, hmarked⟩ := hahead
  induction hlines generalizing ending with
  | nil =>
    have h : ending ++ (indentation ++ content) <:+ text := h
    have hsuffix := (List.suffix_append ending _).trans h
    have hcontent := (List.suffix_append indentation content).trans hsuffix
    obtain ⟨c, hinside, hbyte, hbehind⟩ := index_behind_break h hending
    have hwidth := measureIndent_append hsuffix hblank (head?_content hmarked)
    rw [List.nil_append, nextIndent_def, if_neg hinside, hbyte, some_bind, hbehind]
    dsimp only
    rw [hwidth, indexOf_add_length hsuffix hblank, endsLine_indexOf hcontent]
    rcases hmarked with rfl | hmarked
    · have hline : (splitLine []).2 = [] := rfl
      refine (if_pos rfl).trans ?_
      rw [lineEnd?_indexOf hcontent, some_bind, hline, nextIndent_def]
      exact if_pos (length_le_indexOf_nil text)
    · rw [hmarked.1, isEmpty_of_marked hmarked]
      rfl
  | @cons blanks ending' more hblanks hending' hmore ih =>
    have hassoc : blanks ++ (ending' ++ more) ++ (indentation ++ content) =
        blanks ++ (ending' ++ (more ++ (indentation ++ content))) := by
      rw [List.append_assoc, List.append_assoc]
    rw [hassoc] at h ⊢
    have hsuffix := (List.suffix_append ending _).trans h
    have hcontent := (List.suffix_append blanks _).trans hsuffix
    obtain ⟨c, hinside, hbyte, hbehind⟩ := index_behind_break h hending
    have hwidth := measureIndent_append hsuffix hblanks (head?_break hending')
    have hend := isLineEnd_break hending' (more ++ (indentation ++ content))
    have hline : splitLine (ending' ++ (more ++ (indentation ++ content))) =
        ([], ending' ++ (more ++ (indentation ++ content))) := isLine_nil_iff.2 hend
    rw [nextIndent_def, if_neg hinside, hbyte, some_bind, hbehind]
    dsimp only
    rw [hwidth, indexOf_add_length hsuffix hblanks, endsLine_indexOf hcontent, if_pos hend,
      lineEnd?_indexOf hcontent, some_bind, hline]
    exact ih hcontent hending'

theorem nextIndent_nextLine {line : Nat} (h : Stands text cursor)
    (hend : isLineEnd cursor.rest = true) (hnext : nextLine cursor = (line, indentation, content)) :
    nextIndent text (indexOf text cursor.rest) =
      some (if content.isEmpty then none else some indentation.length) := by
  by_cases hne : cursor.rest = []
  · rw [nextLine_of_rest_eq_nil hne] at hnext
    cases hnext
    rw [hne, nextIndent_def]
    exact if_pos (length_le_indexOf_nil text)
  · obtain ⟨ending, lines, hrest, hending, hahead, -⟩ := exists_break_ahead hnext hend hne
    have hsuffix := h.suffix
    rw [hrest] at hsuffix ⊢
    exact nextIndent_of hsuffix hending hahead

/-! ### Levels -/

theorem headD_append_zero (levels : List Nat) : (levels ++ [0]).headD 0 = levels.headD 0 := by
  cases levels <;> rfl

/-- The levels behind zero are never closed for their width. -/
theorem popWhile_deeper (width : Nat) (start stop : Position) (levels : List Nat)
    (tokens : List Token) :
    popWhile (·.head?.any (width < ·)) start stop (levels ++ [0]) tokens =
      ((closeLevels width levels).1 ++ [0],
        tokens ++ List.replicate (closeLevels width levels).2 ⟨.outdent, start, stop⟩) := by
  induction levels generalizing tokens with
  | nil =>
    rw [List.nil_append, popWhile]
    exact (if_neg (by simp)).trans (by rw [closeLevels, List.replicate_zero, List.append_nil]; rfl)
  | cons level levels ih =>
    rw [List.cons_append, popWhile, closeLevels]
    by_cases hdeeper : width < level
    · have hpop : (level :: (levels ++ [0])).head?.any (width < ·) = true := by
        simpa using hdeeper
      rw [if_pos hpop, ih, if_pos hdeeper, List.replicate_succ, List.append_assoc]
      rfl
    · have hpop : ¬(level :: (levels ++ [0])).head?.any (width < ·) = true := by
        simpa using hdeeper
      rw [if_neg hpop, if_neg hdeeper, List.replicate_zero, List.append_nil]
      rfl

theorem popWhile_all (here : Position) (levels : List Nat) (tokens : List Token) :
    popWhile (1 < ·.length) here here (levels ++ [0]) tokens =
      ([0], tokens ++ levels.map fun _ => ⟨.outdent, here, here⟩) := by
  induction levels generalizing tokens with
  | nil =>
    rw [List.map_nil, List.append_nil]
    rfl
  | cons level levels ih =>
    have hpop : decide (1 < (level :: (levels ++ [0])).length) = true := by simp
    rw [List.cons_append, popWhile, if_pos hpop, ih, List.append_assoc]
    rfl

/-- An indentation opens and closes the levels that the reader opens and closes. -/
theorem lexWidth_of {line : Nat} (h : Stands text ⟨⟨line, 1⟩, indentation ++ content⟩)
    (hblank : ∀ c ∈ indentation, isInlineBlank c = true) :
    lexWidth indentation.length
        (State.of text ⟨⟨line, 1⟩, indentation ++ content⟩ (levels ++ [0]) tokens) =
      done ((readIndentation levels line indentation).map fun found =>
        State.of text ((⟨⟨line, 1⟩, indentation ++ content⟩ : Cursor).advance indentation content)
          (found.2 ++ [0]) (tokens ++ found.1)) := by
  have hskip := skip_length_of (levels ++ [0]) tokens h rfl hblank
  have hstop := h.advance (rfl : _ = indentation ++ _)
  have hcurrent : (State.of text
      ((⟨⟨line, 1⟩, indentation ++ content⟩ : Cursor).advance indentation content) (levels ++ [0])
      tokens).levels.headD 0 = levels.headD 0 := headD_append_zero levels
  rw [lexWidth, place?_of h, lift_bind]
  dsimp only
  rw [hskip, place?_of hstop, lift_bind, hcurrent, readIndentation]
  dsimp only
  by_cases hdeeper : levels.headD 0 < indentation.length
  · rw [if_pos hdeeper, if_pos hdeeper]
    rfl
  rw [if_neg hdeeper, if_neg hdeeper]
  by_cases hshallower : indentation.length < levels.headD 0
  · have hpop : popWhile (·.head?.any (indentation.length < ·)) ⟨line, 1⟩
        ((⟨⟨line, 1⟩, indentation ++ content⟩ : Cursor).advance indentation content).place
        (State.of text ((⟨⟨line, 1⟩, indentation ++ content⟩ : Cursor).advance indentation content)
          (levels ++ [0]) tokens).levels
        (State.of text ((⟨⟨line, 1⟩, indentation ++ content⟩ : Cursor).advance indentation content)
          (levels ++ [0]) tokens).tokens = _ :=
      popWhile_deeper indentation.length ⟨line, 1⟩ _ levels tokens
    have hline : ((⟨line, 1⟩ : Position).after indentation).line = line := by
      rw [after_of_notMem fun hmem => ne_newline_of_isInlineBlank (hblank _ hmem) rfl]
    rw [if_pos hshallower, if_pos hshallower, hpop]
    dsimp only
    rw [headD_append_zero]
    cases (closeLevels indentation.length levels).1.headD 0 == indentation.length with
    | true => rfl
    | false =>
      dsimp only [State.of, Cursor.advance]
      rw [hline]
      rfl
  · rw [if_neg hshallower, if_neg hshallower]
    rfl

/-- The levels open at the end of a template are closed. -/
theorem finish_of (h : Stands text cursor) :
    finish (State.of text cursor (levels ++ [0]) tokens) =
      some (State.of text cursor [0] (tokens ++ Lexer.finish levels cursor)) := by
  have hpop := popWhile_all cursor.place levels tokens
  rw [Scanner.finish, place?_of h, some_bind]
  dsimp only [State.of] at hpop ⊢
  rw [hpop]
  dsimp only [State.push]
  rw [List.append_assoc]
  rfl

/-! ### Blocks of raw text -/

/-- A line of raw text, whose indentation belongs to it behind that of the first line. -/
theorem lexRawLine_of {line : Nat} (base : Option Nat)
    (h : Stands text ⟨⟨line, 1⟩, indentation ++ content⟩)
    (hblank : ∀ c ∈ indentation, isInlineBlank c = true) :
    let column := min indentation.length (base.getD indentation.length)
    let start : Cursor := ⟨⟨line, 1⟩, indentation ++ content⟩
    let here := start.advance (indentation.take column) (indentation.drop column ++ content)
    lexRawLine text base indentation.length (State.of text start levels tokens) =
      some (State.of text (readText here).cursor levels (tokens ++
        (match base with
          | none => here.token .startRawText []
          | some _ => start.token .newline (indentation.take column)) ::
            (readText here).tokens)) := by
  intro column start here
  have hrest : start.rest = indentation.take column ++ (indentation.drop column ++ content) := by
    rw [← List.append_assoc, List.take_append_drop]
  have htake : ∀ c ∈ indentation.take column, isInlineBlank c = true :=
    fun c hc => hblank c (List.mem_of_mem_take hc)
  have hlength : (indentation.take column).length = column := by
    rw [List.length_take, Nat.min_eq_left (Nat.min_le_left _ _)]
  have hskip := skip_length_of levels tokens h hrest htake
  rw [hlength] at hskip
  have hhere := h.advance hrest
  rw [lexRawLine, place?_of h, some_bind]
  dsimp only
  rw [hskip, place?_of hhere, some_bind]
  cases base with
  | none =>
    refine (lexRest_of hhere .text).trans ?_
    rw [List.append_assoc]
    rfl
  | some width =>
    refine (lexRest_of hhere .text).trans ?_
    rw [List.append_assoc]
    rfl

/-- A block of raw text goes over blank lines to its next line. -/
theorem lexRawLines_step {ending : List Char} {parent : Nat} (base : Option Nat)
    (h : Stands text cursor) (hrest : cursor.rest = ending ++ (lines ++ (indentation ++ content)))
    (hending : ending = ['\n'] ∨ ending = ['\r', '\n']) (hlines : SkippedLines lines)
    (hblank : ∀ c ∈ indentation, isInlineBlank c = true) (hmarked : Marked content)
    (hdeeper : parent < indentation.length) :
    lexRawLines text parent base (State.of text cursor levels tokens) = (do
      let s ← lexRawLine text base indentation.length
        (State.of text (cursor.advance (ending ++ lines) (indentation ++ content)) levels tokens)
      lexRawLines text parent (some (base.getD indentation.length)) s) := by
  have hindex (cursor : Cursor) : (State.of text cursor levels tokens).index =
      indexOf text cursor.rest := rfl
  have hnext : (some (if content.isEmpty then none else some indentation.length) : Option _) =
      some (some indentation.length) := by
    rw [isEmpty_of_marked hmarked]
    rfl
  have hany : (some indentation.length).any (parent < ·) = true := decide_eq_true hdeeper
  induction hlines generalizing cursor ending with
  | nil =>
    have hrest : cursor.rest = ending ++ (indentation ++ content) := hrest
    have hbehind := h.advance hrest
    obtain ⟨hwidth, hends⟩ := measure_of levels tokens hbehind rfl hblank hmarked.2
    have hsuffix : ending ++ ([] ++ (indentation ++ content)) <:+ text := hrest ▸ h.suffix
    have hahead := nextIndent_of hsuffix hending ⟨.nil, hblank, .inr hmarked⟩
    rw [List.nil_append, ← hrest, hnext, ← hindex] at hahead
    rw [lexRawLines_def, hahead, some_bind, if_pos hany, lineBreak_of h hrest hending, some_bind,
      hwidth]
    dsimp only
    rw [hends, hmarked.1, List.append_nil]
    rfl
  | @cons blanks ending' more hblanks hending' hmore ih =>
    have hahead := nextIndent_of (hrest ▸ h.suffix) hending
      ⟨.cons hblanks hending' hmore, hblank, .inr hmarked⟩
    rw [← hrest, hnext, ← hindex] at hahead
    have hrest : cursor.rest =
        ending ++ (blanks ++ (ending' ++ (more ++ (indentation ++ content)))) := by
      rw [hrest, List.append_assoc, List.append_assoc]
    have hbreak := h.advance hrest
    obtain ⟨hwidth, hends⟩ := measure_of levels tokens hbreak rfl hblanks (head?_break hending')
    have hskip := skip_length_of levels tokens hbreak rfl hblanks
    have hbehind := hbreak.advance (rfl : _ = blanks ++ _)
    rw [lexRawLines_def, hahead, some_bind, if_pos hany, lineBreak_of h hrest hending, some_bind,
      hwidth]
    dsimp only
    rw [hends, isLineEnd_break hending', if_pos rfl, hskip, ih hbehind rfl hending']
    simp only [advance_advance, List.append_assoc]

/-- A block of raw text is scanned as it is read, and ends where a line is not deeper. -/
theorem lexRawLines_of (levels : List Nat) (tokens : List Token) {parent fuel : Nat}
    {base : Option Nat} {raw : List Token} (h : Stands text cursor)
    (hend : isLineEnd cursor.rest = true) (hfuel : cursor.rest.length < fuel)
    (hread : readRawLines parent fuel base cursor = (raw, stop)) :
    ∃ base' more, lexRawLines text parent base (State.of text cursor levels tokens) =
        some (base', State.of text stop levels (tokens ++ more)) ∧
      raw = if base'.isSome then more ++ [stop.token .endRawText []] else more := by
  induction fuel generalizing cursor base tokens raw with
  | zero => exact absurd hfuel (Nat.not_lt_zero _)
  | succ fuel ih =>
    obtain ⟨⟨line, indentation, content⟩, hnext⟩ : ∃ found, nextLine cursor = found := ⟨_, rfl⟩
    unfold readRawLines at hread
    rw [hnext] at hread
    dsimp only at hread
    -- Where the next line is not deeper, the scan stops in front of it without a token.
    by_cases hends : (content.isEmpty || decide (indentation.length ≤ parent)) = true
    · rw [if_pos hends] at hread
      have hstop : stop = cursor := by
        cases base <;> (cases hread; rfl)
      have hany : ¬(if content.isEmpty then none else some indentation.length).any (parent < ·) =
          true := by
        rw [Bool.or_eq_true, decide_eq_true_eq, ← Nat.not_lt] at hends
        split
        · exact Bool.false_ne_true
        · rename_i hcontent
          exact fun hany => hends.resolve_left hcontent (of_decide_eq_true hany)
      refine ⟨base, [], ?_, ?_⟩
      · have hlook := nextIndent_nextLine h hend hnext
        rw [lexRawLines_def, State.of, hlook, some_bind, if_neg hany, hstop, List.append_nil]
        rfl
      · cases base <;> (cases hread; rfl)
    rw [if_neg hends] at hread
    rw [Bool.or_eq_true, not_or, decide_eq_true_eq, Nat.not_le, List.isEmpty_iff] at hends
    have hne := rest_ne_nil_of_nextLine hnext hends.1
    obtain ⟨ending, lines, hrest, hending, ⟨hlines, hblank, hmarked⟩, hplace⟩ :=
      exists_break_ahead hnext hend hne
    have hmarked := hmarked.resolve_left hends.1
    have hsplit : cursor.rest = ending ++ lines ++ (indentation ++ content) := by
      rw [hrest, List.append_assoc]
    have hstart := h.advance hsplit
    rw [lexRawLines_step base h hrest hending hlines hblank hmarked hends.2]
    rw [Cursor.advance, hplace] at hstart ⊢
    rw [lexRawLine_of base hstart hblank, some_bind]
    -- The first line of a block sets the column that all of its lines are taken from.
    have hbase : base.getD (min indentation.length (base.getD indentation.length)) =
        base.getD indentation.length := by
      cases base with
      | none => exact Nat.min_self _
      | some width => rfl
    rw [hbase] at hread
    generalize min indentation.length (base.getD indentation.length) = column at hread ⊢
    have hsplit : indentation ++ content =
        indentation.take column ++ (indentation.drop column ++ content) := by
      rw [← List.append_assoc, List.take_append_drop]
    have hhere := hstart.advance hsplit
    have hshort : ((⟨⟨line, 1⟩, indentation ++ content⟩ : Cursor).advance (indentation.take column)
        (indentation.drop column ++ content)).rest.length < fuel := by
      change (indentation.drop column ++ content).length < fuel
      have hlength := length_nextLine_lt hnext hend hne
      rw [List.length_append] at hlength
      rw [List.length_append, List.length_drop]
      omega
    generalize (⟨⟨line, 1⟩, indentation ++ content⟩ : Cursor).advance (indentation.take column)
      (indentation.drop column ++ content) = here at hread hhere hshort ⊢
    have htext := readsLine_readText here
    have hless := Nat.lt_of_le_of_lt htext.1.length_le hshort
    obtain ⟨rfl, rfl⟩ := Prod.mk.inj hread
    obtain ⟨base', more, hlex, hmore⟩ := ih _ (hhere.reads htext.1) htext.2 hless rfl
    rw [hlex, hmore]
    refine ⟨base', _ :: (readText here).tokens ++ more,
      congrArg (fun tokens => some (base', State.of text _ levels tokens))
        (List.append_assoc tokens (_ :: (readText here).tokens) more), ?_⟩
    cases base' with
    | none => rfl
    | some width => exact (List.append_assoc (_ :: (readText here).tokens) more _).symm

/-- A block of raw text, if there is one, is scanned behind the line that opens it. -/
theorem lexRaw_of {raw : List Token} (h : Stands text cursor) (hend : isLineEnd cursor.rest = true)
    (hread : readRawLines (levels.headD 0) (cursor.rest.length + 1) none cursor = (raw, stop)) :
    lexRaw text (State.of text cursor (levels ++ [0]) tokens) =
      some (State.of text stop (levels ++ [0]) (tokens ++ raw)) := by
  have hparent : (State.of text cursor (levels ++ [0]) tokens).levels.headD 0 = levels.headD 0 :=
    headD_append_zero levels
  have hstop := h.reads (reads_readRawLines hread hend (Nat.lt_succ_self _)).1
  obtain ⟨base, more, hlex, rfl⟩ := lexRawLines_of (levels ++ [0]) tokens h
    hend (Nat.lt_succ_self _) hread
  rw [lexRaw, hparent, hlex, some_bind]
  dsimp only
  split
  · rw [mark_of hstop hstop, List.append_assoc]
    rfl
  · rfl

/-! ### Lines -/

theorem lexBlock_of (tokens : List Token) {opensBlock : Bool} {raw : List Token}
    (h : Stands text cursor) (hend : isLineEnd cursor.rest = true)
    (hread : (if opensBlock then readRawLines (levels.headD 0) (cursor.rest.length + 1) none cursor
      else ([], cursor)) = (raw, stop)) :
    lexBlock text opensBlock (State.of text cursor (levels ++ [0]) tokens) =
        some (State.of text stop (levels ++ [0]) (tokens ++ raw)) ∧
      Reads cursor raw stop ∧ isLineEnd stop.rest = true := by
  cases opensBlock with
  | true => exact ⟨lexRaw_of h hend hread, reads_readRawLines hread hend (Nat.lt_succ_self _)⟩
  | false =>
    cases hread
    rw [List.append_nil]
    exact ⟨rfl, .refl cursor, hend⟩

/-- The next line with content is scanned up to its content, if there is one. -/
theorem lexIndentation_of {line : Nat} (h : Stands text cursor)
    (hend : isLineEnd cursor.rest = true) (hne : cursor.rest ≠ [])
    (hnext : nextLine cursor = (line, indentation, content)) :
    let behind := (⟨⟨line, 1⟩, indentation ++ content⟩ : Cursor).advance indentation content
    lexIndentation text (State.of text cursor (levels ++ [0]) tokens) =
      done (if content.isEmpty then .ok (false, State.of text behind (levels ++ [0]) tokens)
        else (readIndentation levels line indentation).map fun found =>
          (true, State.of text behind (found.2 ++ [0]) (tokens ++ found.1))) := by
  intro behind
  obtain ⟨ending, lines, hrest, hending, hahead, hplace⟩ := exists_break_ahead hnext hend hne
  have hsplit : cursor.rest = ending ++ lines ++ (indentation ++ content) := by
    rw [hrest, List.append_assoc]
  have hstart := h.advance hsplit
  have hseek := seekLine_of (levels ++ [0]) tokens h hrest hending hahead
  rw [← advance_advance cursor (ending ++ lines) indentation (indentation ++ content)] at hseek
  have hcursor : cursor.advance (ending ++ lines) (indentation ++ content) =
      ⟨⟨line, 1⟩, indentation ++ content⟩ := by
    rw [Cursor.advance, hplace]
  rw [hcursor] at hseek hstart
  rw [lexIndentation, hseek, lift_bind]
  by_cases hempty : content.isEmpty = true
  · rw [if_pos hempty, if_pos hempty]
    rfl
  · rw [if_neg hempty, if_neg hempty]
    dsimp only
    rw [lexWidth_of hstart hahead.blank]
    cases readIndentation levels line indentation <;> rfl

/-- At the end of a template there is no block of raw text. -/
theorem eq_of_rest_eq_nil {opensBlock : Bool} {parent fuel : Nat} {raw : List Token}
    (h : cursor.rest = [])
    (hread : (if opensBlock then readRawLines parent (fuel + 1) none cursor else ([], cursor)) =
      (raw, stop)) : raw = [] ∧ stop = cursor := by
  have hraw : readRawLines parent (fuel + 1) none cursor = ([], cursor) := by
    unfold readRawLines
    rw [nextLine_of_rest_eq_nil h]
    rfl
  rw [hraw, ite_self] at hread
  cases hread
  exact ⟨rfl, rfl⟩

/-- The lines of a template are scanned up to its end, and the levels left open are closed. -/
theorem lexLines_of (levels : List Nat) {fuel : Nat} {opensBlock : Bool} (h : Stands text cursor)
    (hend : isLineEnd cursor.rest = true) (hfuel : cursor.rest.length < fuel) :
    (do
      let s ← lexLines text opensBlock (State.of text cursor (levels ++ [0]) tokens)
      let s ← finish s
      return s.tokens : Scan (List Token)) =
      done ((readLines fuel levels opensBlock cursor).map (tokens ++ ·)) := by
  have hindex (cursor : Cursor) (levels : List Nat) (tokens : List Token) :
      (State.of text cursor levels tokens).index = indexOf text cursor.rest := rfl
  induction fuel generalizing cursor levels opensBlock tokens with
  | zero => exact absurd hfuel (Nat.not_lt_zero _)
  | succ fuel ih =>
    obtain ⟨⟨raw, middle⟩, hraw⟩ : ∃ found, (if opensBlock then
        readRawLines (levels.headD 0) (cursor.rest.length + 1) none cursor
      else ([], cursor)) = found := ⟨_, rfl⟩
    obtain ⟨⟨line, indentation, content⟩, hnext⟩ : ∃ found, nextLine middle = found := ⟨_, rfl⟩
    obtain ⟨hblock, hreads, hmiddle⟩ := lexBlock_of tokens h hend hraw
    have hstands := h.reads hreads
    rw [lexLines_def, hindex, readLines, hraw]
    dsimp only
    rw [hnext]
    dsimp only
    -- At the end of the template no line is scanned and none is read.
    by_cases hne : cursor.rest = []
    · have hstop : ¬indexOf text cursor.rest < (bytes text).length :=
        fun hlt => (indexOf_lt h.suffix).1 hlt hne
      obtain ⟨rfl, rfl⟩ := eq_of_rest_eq_nil hne hraw
      rw [if_neg hstop, if_pos (List.isEmpty_iff.2 hne), pure_bind, finish_of h]
      rfl
    rw [if_pos ((indexOf_lt h.suffix).2 hne), hblock, lift_bind, hindex]
    by_cases hover : middle.rest = []
    · -- Only a block of raw text can have taken the rest of the template.
      have hopens :
          (opensBlock && decide ((bytes text).length ≤ indexOf text middle.rest)) = true := by
        cases opensBlock with
        | true =>
          rw [hover]
          exact decide_eq_true (length_le_indexOf_nil text)
        | false =>
          cases hraw
          exact absurd hover hne
      rw [if_pos hopens, if_pos (List.isEmpty_iff.2 hover), pure_bind, finish_of hstands,
        Except.map, ← List.append_assoc]
      rfl
    have hless :
        ¬(opensBlock && decide ((bytes text).length ≤ indexOf text middle.rest)) = true := by
      have hinside := Nat.not_le.2 ((indexOf_lt hstands.suffix).2 hover)
      rw [decide_eq_false hinside, Bool.and_false]
      exact Bool.false_ne_true
    rw [if_neg hless, if_neg (fun hempty => hover (List.isEmpty_iff.1 hempty)),
      lexIndentation_of hstands hmiddle hover hnext]
    have hnextLine := hstands.reads (reads_nextLine hnext hmiddle hover)
    have hstart := hnextLine.advance (rfl : _ = indentation ++ _)
    by_cases hempty : content.isEmpty = true
    · rw [if_pos hempty, if_pos hempty, done_bind]
      dsimp only
      rw [if_neg Bool.false_ne_true, pure_bind, finish_of hstart, Except.map, ← List.append_assoc]
      rfl
    rw [if_neg hempty, if_neg hempty]
    cases hdepth : readIndentation levels line indentation with
    | error fault => rfl
    | ok found =>
      obtain ⟨depth, levels'⟩ := found
      have hline := lexLine_of (levels' ++ [0]) (tokens ++ raw ++ depth) hstart
      rw [Except.map, done_bind, ok_bind]
      dsimp only
      rw [if_pos rfl, hline]
      cases hbody : readLine ((⟨⟨line, 1⟩, indentation ++ content⟩ : Cursor).advance indentation
          content) with
      | error fault => rfl
      | ok body =>
        obtain ⟨hreadsBody, hbodyEnd⟩ := readsLine_readLine hbody
        -- The next line has content, so that fuel is left for the lines behind it.
        have hshort : body.cursor.rest.length < fuel := by
          have hcontent : body.cursor.rest.length ≤ content.length := hreadsBody.length_le
          have hnextLine := length_nextLine_lt hnext hmiddle hover
          have hblock := hreads.length_le
          rw [List.length_append] at hnextLine
          omega
        refine (ih _ (hstart.reads hreadsBody) hbodyEnd hshort).trans ?_
        rw [ok_bind]
        cases readLines fuel levels' body.opensBlock body.cursor with
        | error fault => rfl
        | ok others =>
          refine congrArg (fun tokens => done (.ok tokens)) ?_
          simp only [List.append_assoc]

/-! ### Templates -/

/-- The byte order mark is told by its bytes. -/
theorem isPrefixOf_bytes_iff (text : List Char) :
    ['\xef', '\xbb', '\xbf'].isPrefixOf (bytes text) = true ↔ ∃ cs, text = '\ufeff' :: cs := by
  constructor
  · intro h
    rcases text with _ | ⟨c, cs⟩
    · cases h
    obtain ⟨rest, hrest⟩ := List.isPrefixOf_iff_prefix.1 h
    have hcode {b : Char} {n : Nat} (h : b = Char.ofUInt8 (UInt8.ofNat n)) : b.toNat = n % 256 := by
      rw [h, toNat_ofUInt8, UInt8.toNat_ofNat']
    refine ⟨cs, congrArg (· :: cs) (Char.ext (UInt32.toNat_inj.1 ?_))⟩
    rw [bytes_cons, bytesOf, String.utf8EncodeChar] at hrest
    -- Only characters of three bytes start with the first byte of the mark.
    split at hrest
    · have hfirst : 239 = _ := hcode (List.cons.inj hrest).1
      omega
    split at hrest
    · have hfirst : 239 = _ := hcode (List.cons.inj hrest).1
      omega
    split at hrest
    · obtain ⟨hfirst, hrest⟩ := List.cons.inj hrest
      obtain ⟨hsecond, hrest⟩ := List.cons.inj hrest
      have hfirst : 239 = _ := hcode hfirst
      have hsecond : 187 = _ := hcode hsecond
      have hthird : 191 = _ := hcode (List.cons.inj hrest).1
      change c.val.toNat = 65279
      omega
    · have hfirst : 239 = _ := hcode (List.cons.inj hrest).1
      omega
  · rintro ⟨cs, rfl⟩
    rfl

/-- A scan starts where the reader does. -/
theorem start_of (text : List Char) :
    (start text).skip (measureIndent text (start text).index) =
      State.of text (firstContent text) ([] ++ [0]) [] := by
  by_cases hmark : ∃ cs, text = '\ufeff' :: cs
  · have hbytes : ['\xef', '\xbb', '\xbf'].isPrefixOf (bytes text) = true :=
      (isPrefixOf_bytes_iff text).2 hmark
    obtain ⟨cs, rfl⟩ := hmark
    have hstands : Stands ('\ufeff' :: cs)
        ((⟨.first, '\ufeff' :: cs⟩ : Cursor).advance ['\ufeff'] cs) :=
      Stands.next ⟨[], rfl, rfl⟩ rfl
    have hindex : indexOf ('\ufeff' :: cs) cs = 3 := indexOf_append ['\ufeff'] cs
    have hstart : start ('\ufeff' :: cs) = State.of ('\ufeff' :: cs)
        ((⟨.first, '\ufeff' :: cs⟩ : Cursor).advance ['\ufeff'] cs) ([] ++ [0]) [] := by
      rw [start, if_pos hbytes, State.of]
      dsimp only [Cursor.advance]
      rw [hindex]
      rfl
    rw [hstart]
    exact skip_measureIndent _ _ hstands
  · have hbytes : ¬['\xef', '\xbb', '\xbf'].isPrefixOf (bytes text) = true :=
      mt (isPrefixOf_bytes_iff text).1 hmark
    have hstands : Stands text ⟨.first, text⟩ := ⟨[], rfl, rfl⟩
    have hindex : indexOf text text = 0 := Nat.sub_self _
    have hstart : start text = State.of text ⟨.first, text⟩ ([] ++ [0]) [] := by
      rw [start, if_neg hbytes, State.of, hindex]
      rfl
    have hfirst : firstContent text = (⟨.first, text⟩ : Cursor).advance
        (text.takeWhile isInlineBlank) (text.dropWhile isInlineBlank) := by
      unfold firstContent
      split
      · exact absurd ⟨_, rfl⟩ hmark
      · rfl
    rw [hstart, hfirst]
    exact skip_measureIndent _ _ hstands

/-- What is read of the first line. -/
def firstLine (text : List Char) : Except LexError LineTokens :=
  if isLineEnd (firstContent text).rest then .ok ⟨[], firstContent text, false⟩
  else readLine (firstContent text)

theorem read_eq_firstLine (text : List Char) : Lexer.read text = (do
    let line ← firstLine text
    let others ← readLines (text.length + 1) [] line.opensBlock line.cursor
    return line.tokens ++ others) := by
  unfold Lexer.read firstLine
  dsimp only
  split <;> rfl

theorem readsLine_firstLine {text : List Char} {line : LineTokens}
    (h : firstLine text = .ok line) : ReadsLine (firstContent text) line := by
  rw [firstLine] at h
  split at h
  · rename_i hend
    cases h
    exact ⟨.refl _, hend⟩
  · exact readsLine_readLine h

theorem lexFirst_of (h : Stands text (firstContent text)) :
    lexFirst text (State.of text (firstContent text) levels tokens) =
      behindLine text levels tokens (firstLine text) := by
  have hindex : (State.of text (firstContent text) levels tokens).index =
      indexOf text (firstContent text).rest := rfl
  rw [lexFirst, hindex, endsLine_indexOf h.suffix, firstLine]
  by_cases hend : isLineEnd (firstContent text).rest = true
  · rw [if_pos hend, if_pos hend, behindLine, Except.map, List.append_nil]
    rfl
  · rw [if_neg hend, if_neg hend, lexLine_of _ _ h]

/-- A text is scanned as it is read. -/
theorem scan_eq_read (text : List Char) : scan text = done (Lexer.read text) := by
  have hreads := reads_firstContent text
  have hstands : Stands text (firstContent text) := Stands.reads ⟨[], rfl, rfl⟩ hreads
  have hlength : (firstContent text).rest.length ≤ text.length := hreads.length_le
  rw [scan, start_of, read_eq_firstLine]
  dsimp only
  rw [lexFirst_of hstands]
  cases hline : firstLine text with
  | error fault => rfl
  | ok line =>
    obtain ⟨hreadsLine, hend⟩ := readsLine_firstLine hline
    rw [ok_bind]
    refine (lexLines_of [] (hstands.reads hreadsLine) hend
      (Nat.lt_succ_of_le (hreadsLine.length_le.trans hlength))).trans ?_
    cases readLines (text.length + 1) [] line.opensBlock line.cursor <;> rfl

/-- Every scan of a template gives what is read of it: no index is out of the bytes or inside of a
    character, no difference is below zero, and the scan ends. -/
theorem run_eq_tokenize (template : String) : run template = some (tokenize template) := by
  rw [run, scan_eq_read]
  rfl

end Scanner

end PugLint
