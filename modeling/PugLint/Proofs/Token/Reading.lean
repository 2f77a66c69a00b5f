import PugLint.Proofs.Token.Paths

/-!
# Where tokens are read

The reader goes along a path of pieces, and the tokens of a piece stand over a text that may
be written for them. So the text between two cursors that a path leads over carries the tokens
that are read of it. This module says so for a move and a path, and of them for the parts of the
reader, from attributes over lines to the whole template.

* `Lexer.Move.written`, `Lexer.Path.laid`: a move, and a path;
* `Lexer.Goes.reads`, `Lexer.readsLine_readLine`: parts of the reader, and a line;
* `laid_of_tokenize`: the tokens of a template stand on its text.
-/

namespace PugLint

namespace Lexer

variable {cursor stop : Cursor}

/-! ### Tokens of a piece -/

/-- An attribute is read with its value, if it has one. -/
theorem ReadsAttribute.written {kind : TokenKind} {written rest : List Char}
    (h : ReadsAttribute kind written rest) : kind.Written written := by
  obtain ⟨name, shown, left, hname, hcases⟩ := readAttribute_cases (h .first)
  have hshown : NameWritten (String.ofList name).toList shown := by
    rw [String.toList_ofList]
    exact (readName_eq hname).2
  rcases hcases with ⟨-, htoken, hstop⟩ |
    ⟨sign, escaped, behind, before, value, left', hsign, hbefore, hvalue, -, htoken, hstop⟩
  · obtain rfl : rest = left := congrArg Cursor.rest hstop
    obtain rfl := congrArg Token.kind htoken
    obtain rfl : written = shown := List.append_cancel_right (readName_eq hname).1
    exact ⟨hshown, rfl⟩
  · obtain rfl : rest = left' := congrArg Cursor.rest hstop
    obtain rfl := congrArg Token.kind htoken
    obtain ⟨rfl, blanks, hblanks, rfl⟩ := scanAssignment_eq hsign
    have hrest : written ++ rest = before ++ value ++ rest := by
      refine (readName_eq hname).1.trans ?_
      rw [hbefore, List.append_assoc _ value, ← eq_append_of_scanValue hvalue]
      simp only [List.append_assoc, List.takeWhile_append_dropWhile]
    obtain rfl := List.append_cancel_right hrest
    refine ⟨shown, blanks, behind.takeWhile isInlineBlank, hshown, hblanks,
      fun c hc => List.mem_takeWhile_imp hc, ?_⟩
    rw [hbefore, String.toList_ofList, assignment]
    simp only [List.append_assoc]

/-- Code behind its marker. -/
theorem written_code {marker : List Char} {buffered : Bool} (h : CodeMarker marker buffered)
    (cs : List Char) :
    (TokenKind.code (String.ofList (Text.trimLeft cs)) buffered).Written (marker ++ cs) := by
  refine ⟨marker, cs.takeWhile Text.isBlank, h, fun c hc => List.mem_takeWhile_imp hc, ?_⟩
  rw [String.toList_ofList, Text.trimLeft, List.append_assoc, List.takeWhile_append_dropWhile]

theorem ShownCode.written {line : List Char} {kind : TokenKind} (h : ShownCode line kind) :
    kind.Written line := by
  cases h with
  | escaped => exact written_code .escaped _
  | raw => exact written_code .raw _

/-- A comment behind its marker. -/
theorem written_comment {marker : List Char} {buffered : Bool} (h : CommentMarker marker buffered)
    (cs : List Char) :
    (TokenKind.comment (String.ofList cs) buffered).Written (marker ++ cs) :=
  ⟨marker, h, by rw [String.toList_ofList]⟩

/-- A control line other than an else-if is its keyword and what follows it. -/
theorem written_control {keyword : Keyword} (hk : keyword ≠ .elseIf) {behind : List Char} :
    (TokenKind.control keyword (String.ofList (Text.trim behind))).Written
      (keyword.spelling.toList ++ behind) := by
  cases keyword
  case elseIf => exact absurd rfl hk
  all_goals exact ⟨behind, rfl, String.toList_ofList⟩

theorem spelling_of_ofWord? {word : String} {keyword : Keyword}
    (h : Keyword.ofWord? word = some keyword) :
    keyword.spelling = word ∧ keyword ≠ .elseIf := by
  refine ⟨by simpa using List.find?_some h, ?_⟩
  rintro rfl
  exact absurd (List.mem_of_find?_eq_some h) (by decide)

/-- A document type or a control line is its word and what follows it. -/
theorem written_of_keywordLine? {line : List Char} {kind : TokenKind}
    (h : keywordLine? line = some kind) : kind.Written line := by
  obtain ⟨word, hword⟩ : ∃ word, line.takeWhile Char.isLower = word := ⟨_, rfl⟩
  obtain ⟨behind, hbehind⟩ : ∃ behind, line.dropWhile Char.isLower = behind := ⟨_, rfl⟩
  obtain rfl : word ++ behind = line := by
    rw [← hword, ← hbehind, List.takeWhile_append_dropWhile]
  simp only [keywordLine?, hword, hbehind] at h
  split at h
  · split at h
    · rename_i hdoctype
      cases h
      refine ⟨behind, ?_, String.toList_ofList⟩
      rw [← beq_iff_eq.1 hdoctype, String.toList_ofList]
    · obtain ⟨keyword, hk, rfl⟩ := Option.map_eq_some_iff.1 h
      obtain ⟨hspelling, hne⟩ := spelling_of_ofWord? hk
      obtain rfl : keyword.spelling.toList = word := by rw [hspelling, String.toList_ofList]
      split
      · rename_i condition hcondition _
        split
        · exact ⟨behind, condition, rfl, hcondition, String.toList_ofList⟩
        · exact written_control hne
      · exact written_control hne
  · cases h

theorem WholeLine.written {line : List Char} {kind : TokenKind} {opensBlock : Bool}
    (h : WholeLine line kind opensBlock) : kind.Written line := by
  cases h with
  | html => exact String.toList_ofList.symm
  | hiddenComment => exact written_comment .hidden _
  | comment => exact written_comment .shown _
  | code => exact written_code .plain _
  | shownCode h => exact h.written
  | keyword h => exact written_of_keywordLine? h

theorem IsGroup.written {group : List Char} (h : IsGroup group) :
    (TokenKind.andAttributes (String.ofList group.dropLast)).Written
      ("&attributes(".toList ++ group) := by
  obtain ⟨-, body, rfl⟩ := eq_append_of_scanGroup (h .first .first [])
  rw [List.dropLast_concat, ← List.append_assoc]
  exact congrArg ("&attributes(".toList ++ · ++ [')']) String.toList_ofList.symm

/-- The tokens of an indentation stand over it. -/
theorem Indents.written {levels levels' : List Nat} {indentation : List Char}
    {kinds : List TokenKind} (h : Indents levels indentation.length kinds levels')
    (hblank : ∀ c ∈ indentation, isInlineBlank c = true) :
    ∀ kind ∈ kinds, kind.Written indentation := by
  cases h with
  | deeper => exact List.forall_mem_singleton.2 ⟨hblank, rfl⟩
  | same => exact List.forall_mem_singleton.2 hblank
  | outer =>
    intro kind hkind
    obtain rfl := List.eq_of_mem_replicate hkind
    exact hblank

/-! ### Moves and paths -/

/-- The tokens of a move stand over what may be written for them. -/
theorem Move.written {s t : State} {piece : Piece} {rest : List Char} (h : Move s piece rest t) :
    ∀ kind ∈ piece.kinds, kind.Written piece.written := by
  cases h with
  | start | element | ended | trailing => exact List.forall_mem_nil _
  | bar | tag | text | interpolation | rawText =>
    exact List.forall_mem_singleton.2 String.toList_ofList.symm
  | whole h => exact List.forall_mem_singleton.2 h.written
  | call => exact List.forall_mem_singleton.2 (congrArg _ String.toList_ofList.symm)
  | literal hc =>
    cases hc <;> exact List.forall_mem_singleton.2 (congrArg _ String.toList_ofList.symm)
  | dot | opens | colon | slash | closes | raw | rawClose => exact List.forall_mem_singleton.2 rfl
  | spread h => exact List.forall_mem_singleton.2 h.written
  | code h => exact List.forall_mem_singleton.2 h.written
  | listed _ _ h => exact List.forall_mem_singleton.2 h.written
  | next h _ _ _ hindents => exact hindents.written h.blank
  | finish =>
    intro kind hkind
    rcases List.mem_append.1 hkind with hkind | hkind
    · obtain rfl := List.eq_of_mem_replicate hkind
      exact List.forall_mem_nil _
    · obtain rfl := List.mem_singleton.1 hkind
      rfl
  | rawNext h =>
    exact List.forall_mem_singleton.2 fun c hc => h.blank c (List.mem_of_mem_take hc)

theorem Piece.laid {piece : Piece} (h : ∀ kind ∈ piece.kinds, kind.Written piece.written)
    (place : Position) : Laid place piece.text (piece.tokens place) :=
  ((Laid.ofWritten h).extend piece.behind).skip piece.skipped

/-- The tokens of a path stand on its text. -/
theorem Path.laid {s t : State} {pieces : List Piece} {rest : List Char}
    (h : Path s pieces rest t) (place : Position) :
    Laid place (textOf pieces) (tokensFrom place pieces) := by
  induction h generalizing place with
  | nil => exact .nil
  | cons hmove _ ih =>
    rw [textOf_cons]
    exact (Piece.laid hmove.written place).append (ih _)

theorem Goes.reads {s t : State} {tokens : List Token} (h : Goes s cursor tokens t stop) :
    Reads cursor tokens stop := by
  obtain ⟨pieces, hpath, hrest, hplace, rfl⟩ := h
  exact ⟨textOf pieces, hrest, hplace, hpath.laid cursor.place⟩

/-! ### Parts of the reader -/

theorem reads_readAttribute {token : Token} (h : readAttribute cursor = .ok (token, stop)) :
    Reads cursor [token] stop := by
  obtain ⟨kind, written, hrest, rfl, hstop, hread⟩ := exists_readsAttribute h
  exact ⟨written, hrest, congrArg Cursor.place hstop, .single hread.written⟩

theorem reads_readAttributes {start : Position} {fuel : Nat} {tokens : List Token}
    (h : readAttributes start fuel cursor = .ok (tokens, stop)) : Reads cursor tokens stop :=
  (goes_readAttributes h []).reads

/-- What has been read of a line: its tokens, up to the end of the line. -/
def ReadsLine (cursor : Cursor) (line : LineTokens) : Prop :=
  Reads cursor line.tokens line.cursor ∧ isLineEnd line.cursor.rest = true

theorem GoesLine.readsLine {s : State} {line : LineTokens} (h : GoesLine s cursor line)
    (hs : ¬s.stage.EndsLine) : ReadsLine cursor line :=
  ⟨Goes.reads h, Goes.endsLine h (fun h => absurd h hs) trivial⟩

theorem readsLine_readText (cursor : Cursor) : ReadsLine cursor (readText cursor) := by
  obtain ⟨hline, hrest, hend⟩ := isLine_splitLine (Eq.refl (splitLine cursor.rest))
  have hgoes : Goes ⟨.rawLine 0, []⟩ cursor (readText cursor).tokens ⟨.rawEnd 0, []⟩
      (readText cursor).cursor := .token (.rawText hline) hrest
  exact ⟨hgoes.reads, hend⟩

/-- A line is read up to its end. -/
theorem readsLine_readLine {line : LineTokens} (h : readLine cursor = .ok line) :
    ReadsLine cursor line := by
  by_cases hne : cursor.rest = []
  · obtain ⟨place, rest⟩ := cursor
    obtain rfl : rest = [] := hne
    cases h
    exact ⟨.refl _, rfl⟩
  · exact (goes_readLine h hne []).readsLine nofun

/-- From the end of a line to the next one with content nothing is read. -/
theorem reads_nextLine {line : Nat} {indentation content : List Char}
    (h : nextLine cursor = (line, indentation, content)) (hend : isLineEnd cursor.rest = true)
    (hne : cursor.rest ≠ []) : Reads cursor [] ⟨⟨line, 1⟩, indentation ++ content⟩ := by
  obtain ⟨lines, hrest, -, -, hplace⟩ := ahead_nextLine h hend hne
  exact ⟨lines, hrest, hplace.symm, .nil⟩

/-- A block of raw text is read up to the end of its last line. -/
theorem reads_readRawLines {parent fuel : Nat} {base : Option Nat} {tokens : List Token}
    (h : readRawLines parent fuel base cursor = (tokens, stop))
    (hend : isLineEnd cursor.rest = true) (hfuel : cursor.rest.length < fuel) :
    Reads cursor tokens stop ∧ isLineEnd stop.rest = true := by
  obtain ⟨opensBlock, -, hgoes⟩ :=
    goes_readRawLines (show readRawLines ([parent].headD 0) fuel base cursor = _ from h) hend hfuel
  exact ⟨hgoes.reads, hgoes.endsLine (fun _ => hend) trivial⟩

/-- The first line is read from behind a byte order mark and its indentation. -/
theorem reads_firstContent (text : List Char) :
    Reads ⟨.first, text⟩ [] (firstContent text) := by
  obtain ⟨skipped, hrest, hplace⟩ := firstContent_eq text
  exact ⟨skipped, hrest, hplace, .nil⟩

end Lexer

open Lexer

/-- The tokens of a template stand on its text, one behind the other. -/
theorem laid_of_tokenize {template : String} {tokens : List Token}
    (h : tokenize template = .ok tokens) : Laid .first template.toList tokens := by
  obtain ⟨pieces, hpath, htext, rfl⟩ := exists_path_tokenize h
  exact htext ▸ hpath.laid .first

end PugLint
