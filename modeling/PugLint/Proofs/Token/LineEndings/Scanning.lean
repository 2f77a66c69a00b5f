import PugLint.Proofs.Forest.Attributes
import PugLint.Proofs.Token.Acceptance
import PugLint.Proofs.Token.Outline

/-!
# Line breaks and the scanners

A line break is a line feed, with or without a carriage return in front of it. Here a text is
compared with the one that has a carriage return in front of every line feed: every scanner
takes the same part of both, up to those carriage returns, and stops at the same place.

* `Text.crlf`, `Token.crlf`: a text, and a token, with carriage returns;
* `Lexer.scanString_crlfChars`, `Lexer.scanValue_crlfChars`, `Lexer.scanGroup_crlfChars`:
  strings, values and groups, over line breaks;
* `Lexer.readAttributes_crlf`: a list of attributes.
-/

namespace PugLint

namespace Text

/-- A text with a carriage return in front of every line feed. -/
def crlfChars : List Char → List Char
  | [] => []
  | c :: cs => if c == '\n' then '\r' :: '\n' :: crlfChars cs else c :: crlfChars cs

/-- A text with a carriage return in front of every line feed. -/
def crlf (s : String) : String :=
  String.ofList (crlfChars s.toList)

@[simp] theorem crlfChars_nil : crlfChars [] = [] := rfl

@[simp] theorem crlfChars_newline (cs : List Char) :
    crlfChars ('\n' :: cs) = '\r' :: '\n' :: crlfChars cs := rfl

theorem crlfChars_cons {c : Char} (h : c ≠ '\n') (cs : List Char) :
    crlfChars (c :: cs) = c :: crlfChars cs :=
  if_neg (by simpa using h)

@[simp] theorem crlfChars_append (cs ds : List Char) :
    crlfChars (cs ++ ds) = crlfChars cs ++ crlfChars ds := by
  induction cs with
  | nil => rfl
  | cons c cs ih =>
    by_cases hc : c = '\n'
    · simp [hc, ih]
    · simp [crlfChars_cons hc, ih]

theorem crlfChars_of_notMem {cs : List Char} (h : '\n' ∉ cs) : crlfChars cs = cs := by
  induction cs with
  | nil => rfl
  | cons c cs ih =>
    rw [crlfChars_cons (List.ne_of_not_mem_cons h).symm, ih (List.not_mem_of_not_mem_cons h)]

@[simp] theorem isEmpty_crlfChars (cs : List Char) : (crlfChars cs).isEmpty = cs.isEmpty := by
  rcases cs with _ | ⟨c, cs⟩
  · rfl
  · rw [crlfChars]
    split <;> rfl

theorem eq_or_mem_of_mem_crlfChars {c : Char} {cs : List Char} (h : c ∈ crlfChars cs) :
    c = '\r' ∨ c ∈ cs := by
  induction cs with
  | nil => exact .inr h
  | cons d cs ih =>
    rw [crlfChars] at h
    split at h
    · rename_i hd
      obtain rfl := LawfulBEq.eq_of_beq hd
      rcases List.mem_cons.1 h with rfl | h
      · exact .inl rfl
      · rcases List.mem_cons.1 h with rfl | h
        · exact .inr List.mem_cons_self
        · exact (ih h).imp_right (List.mem_cons_of_mem _)
    · rcases List.mem_cons.1 h with rfl | h
      · exact .inr List.mem_cons_self
      · exact (ih h).imp_right (List.mem_cons_of_mem _)

theorem crlf_ofList (cs : List Char) : crlf (String.ofList cs) = String.ofList (crlfChars cs) := by
  rw [crlf, String.toList_ofList]

theorem crlf_ofList_of_notMem {cs : List Char} (h : '\n' ∉ cs) :
    crlf (String.ofList cs) = String.ofList cs := by
  rw [crlf_ofList, crlfChars_of_notMem h]

/-- Nothing but the first character of a line break is another one. -/
theorem head?_crlfChars (cs : List Char) :
    (crlfChars cs).head? = cs.head?.map fun c => if c = '\n' then '\r' else c := by
  rcases cs with _ | ⟨c, cs⟩
  · rfl
  · by_cases hc : c = '\n'
    · simp [hc]
    · simp [crlfChars_cons hc, hc]

theorem any_head?_crlfChars {p : Char → Bool} (hp : p '\r' = p '\n') (cs : List Char) :
    (crlfChars cs).head?.any p = cs.head?.any p := by
  rw [head?_crlfChars]
  rcases cs with _ | ⟨c, cs⟩
  · rfl
  · by_cases hc : c = '\n'
    · simp [hc, hp]
    · simp [hc]

theorem head?_crlfChars_beq {d : Char} (hn : d ≠ '\n') (hr : d ≠ '\r') (cs : List Char) :
    ((crlfChars cs).head? == some d) = (cs.head? == some d) := by
  rw [head?_crlfChars]
  rcases cs with _ | ⟨c, cs⟩
  · rfl
  · by_cases hc : c = '\n'
    · simp [hc, hn.symm, hr.symm]
    · simp [hc]

theorem head?_crlfChars_eq {d : Char} (hn : d ≠ '\n') (hr : d ≠ '\r') {cs : List Char} :
    (crlfChars cs).head? = some d ↔ cs.head? = some d := by
  rw [← beq_iff_eq, head?_crlfChars_beq hn hr, beq_iff_eq]

/-- A class of characters that does not tell the two parts of a line break apart. -/
theorem takeWhile_crlfChars {p : Char → Bool} (hp : p '\r' = p '\n') (cs : List Char) :
    (crlfChars cs).takeWhile p = crlfChars (cs.takeWhile p) := by
  induction cs with
  | nil => rfl
  | cons c cs ih =>
    by_cases hc : c = '\n'
    · subst hc
      cases hn : p '\n' with
      | true => simp [hn, hp, ih]
      | false => simp [hn, hp]
    · cases hp : p c with
      | true => simp [hp, crlfChars_cons hc, ih]
      | false => simp [hp, crlfChars_cons hc]

theorem dropWhile_crlfChars {p : Char → Bool} (hp : p '\r' = p '\n') (cs : List Char) :
    (crlfChars cs).dropWhile p = crlfChars (cs.dropWhile p) := by
  refine List.append_cancel_left (?_ : crlfChars (cs.takeWhile p) ++ _ = crlfChars _ ++ _)
  rw [← takeWhile_crlfChars hp, List.takeWhile_append_dropWhile, takeWhile_crlfChars hp,
    ← crlfChars_append, List.takeWhile_append_dropWhile]

theorem length_crlfChars_lt {taken : List Char} (h : taken ≠ []) (rest : List Char) :
    (crlfChars rest).length < (crlfChars (taken ++ rest)).length := by
  have hpos : 0 < (crlfChars taken).length := by
    rw [List.length_pos_iff, ne_eq, ← List.isEmpty_iff, isEmpty_crlfChars, List.isEmpty_iff]
    exact h
  rw [crlfChars_append, List.length_append]
  omega

theorem mem_of_mem_trimLeft {c : Char} {cs : List Char} (h : c ∈ trimLeft cs) : c ∈ cs :=
  (List.dropWhile_suffix _).mem h

theorem mem_of_mem_trim {c : Char} {cs : List Char} (h : c ∈ trim cs) : c ∈ cs := by
  rw [trim, trimRight, List.mem_reverse] at h
  exact mem_of_mem_trimLeft (List.mem_reverse.1 ((List.dropWhile_suffix _).mem h))

end Text

/-- The places behind a text are the same. -/
@[simp] theorem Position.after_crlfChars (p : Position) (text : List Char) :
    p.after (Text.crlfChars text) = p.after text := by
  induction text generalizing p with
  | nil => rfl
  | cons c text ih =>
    by_cases hc : c = '\n'
    · subst hc
      rw [Text.crlfChars_newline, after_cons, after_cons, after_cons, ih]
      rfl
    · rw [Text.crlfChars_cons hc, after_cons, after_cons, ih]

/-- A kind of token with its texts changed. -/
def TokenKind.mapTexts (f : String → String) : TokenKind → TokenKind
  | .tag name => .tag (f name)
  | .classLiteral name => .classLiteral (f name)
  | .idLiteral name => .idLiteral (f name)
  | .attribute name value escaped => .attribute (f name) (value.map f) escaped
  | .andAttributes value => .andAttributes (f value)
  | .text value => .text (f value)
  | .html value => .html (f value)
  | .code value buffered => .code (f value) buffered
  | .comment value buffered => .comment (f value) buffered
  | .doctype value => .doctype (f value)
  | .control keyword expression => .control keyword (f expression)
  | .call name => .call (f name)
  | .startAttributes => .startAttributes
  | .endAttributes => .endAttributes
  | .dot => .dot
  | .colon => .colon
  | .slash => .slash
  | .startRawText => .startRawText
  | .endRawText => .endRawText
  | .newline => .newline
  | .indent width => .indent width
  | .outdent => .outdent
  | .eos => .eos

/-- A token with a carriage return in front of every line feed of its texts. -/
def Token.crlf (token : Token) : Token :=
  { token with kind := token.kind.mapTexts Text.crlf }

namespace Lexer

open Text

/-- A cursor in the text with carriage returns. -/
def Cursor.crlf (cursor : Cursor) : Cursor :=
  ⟨cursor.place, crlfChars cursor.rest⟩

def LineTokens.crlf (line : LineTokens) : LineTokens :=
  ⟨line.tokens.map Token.crlf, line.cursor.crlf, line.opensBlock⟩

/-- Two parts of a text with carriage returns. -/
def crlfParts (parts : List Char × List Char) : List Char × List Char :=
  (crlfChars parts.1, crlfChars parts.2)

theorem isLineEnd_crlfChars {cs : List Char} (h : '\r' ∉ cs) :
    isLineEnd (crlfChars cs) = isLineEnd cs := by
  rcases cs with _ | ⟨c, cs⟩
  · rfl
  · by_cases hc : c = '\n'
    · subst hc
      rfl
    · have hr : c ≠ '\r' := fun hr => h (hr ▸ List.mem_cons_self)
      rw [crlfChars_cons hc, isLineEnd_cons_of_ne hc hr, isLineEnd_cons_of_ne hc hr]

theorem splitLine_crlfChars {cs : List Char} (h : '\r' ∉ cs) :
    splitLine (crlfChars cs) = ((splitLine cs).1, crlfChars (splitLine cs).2) := by
  induction cs with
  | nil => rfl
  | cons c cs ih =>
    by_cases hc : c = '\n'
    · subst hc
      rfl
    · have hend := isLineEnd_cons_of_ne hc (List.ne_of_not_mem_cons h).symm
      rw [crlfChars_cons hc, splitLine_cons (hend _), splitLine_cons (hend _),
        ih (List.not_mem_of_not_mem_cons h)]

theorem unexpected_crlf {cursor : Cursor} (h : '\r' ∉ cursor.rest) :
    unexpected cursor.crlf = unexpected cursor := by
  rw [unexpected, unexpected, Cursor.crlf, splitLine_crlfChars h]

theorem seekContent_crlfChars (line : Nat) (lineStart : List Char) {cs : List Char}
    (h : '\r' ∉ cs) :
    seekContent line (crlfChars lineStart) (crlfChars cs) =
      ((seekContent line lineStart cs).1, crlfChars (seekContent line lineStart cs).2) := by
  fun_induction seekContent line lineStart cs with
  | case1 => rfl
  | case2 line lineStart cs ih => exact ih (List.not_mem_of_not_mem_cons h)
  | case3 => exact absurd List.mem_cons_self h
  | case4 line lineStart c cs hnewline hreturn hblank ih =>
    have hc : c ≠ '\n' := by
      rintro rfl
      exact absurd hblank (by decide)
    rw [crlfChars_cons hc]
    have hc' : isInlineBlank c = true := hblank
    simp only [isInlineBlank, Bool.or_eq_true, beq_iff_eq] at hc'
    rcases hc' with rfl | rfl <;> exact ih (List.not_mem_of_not_mem_cons h)
  | case5 line lineStart c cs hnewline hreturn hblank =>
    rw [crlfChars_cons hnewline]
    unfold seekContent
    split
    · rename_i hnil
      cases hnil
    · rename_i hcs
      cases hcs
      exact absurd rfl hnewline
    · rename_i hcs
      obtain rfl := (List.cons.inj hcs).1
      exact absurd List.mem_cons_self h
    · rename_i hcs
      obtain rfl := (List.cons.inj hcs).1
      rw [if_neg hblank]

theorem nextLine_crlf {cursor : Cursor} (h : '\r' ∉ cursor.rest) :
    nextLine cursor.crlf =
      ((nextLine cursor).1, (nextLine cursor).2.1, crlfChars (nextLine cursor).2.2) := by
  have hblanks (text : List Char) : '\n' ∉ text.takeWhile isInlineBlank :=
    newline_not_mem_of_blank fun c hc => List.mem_takeWhile_imp hc
  rw [nextLine, nextLine, Cursor.crlf, seekContent_crlfChars _ _ h]
  dsimp only
  rw [takeWhile_crlfChars rfl, dropWhile_crlfChars rfl, crlfChars_of_notMem (hblanks _)]

/-! ### Strings, values and groups -/

/-- Quotes are no line breaks, and no backslashes. -/
theorem ne_of_isQuote {c : Char} (h : isQuote c = true) : c ≠ '\n' ∧ c ≠ '\r' ∧ c ≠ '\\' := by
  refine ⟨?_, ?_, ?_⟩ <;> (rintro rfl; exact absurd h (by decide))

theorem scanString_cons {c : Char} (h : c ≠ '\\') (quote : Char) (cs : List Char) :
    scanString quote (c :: cs) =
      if c == quote then some ([c], cs)
      else (scanString quote cs).map fun (taken, rest) => (c :: taken, rest) := by
  rw [scanString]
  rintro d ds rfl
  exact absurd rfl h

theorem scanString_crlfChars {quote : Char} (hquote : isQuote quote = true) (cs : List Char) :
    scanString quote (crlfChars cs) = (scanString quote cs).map crlfParts := by
  obtain ⟨hn, hr, hs⟩ := ne_of_isQuote hquote
  fun_induction scanString quote cs with
  | case1 => rfl
  | case2 c cs ih =>
    rw [crlfChars_cons (by decide)]
    by_cases hc : c = '\n'
    · -- The backslash takes the carriage return along, and the line feed is a plain character.
      subst hc
      rw [crlfChars_newline, scanString, scanString_cons (by decide),
        if_neg (by simpa using hn.symm), ih]
      cases scanString quote cs <;> rfl
    · rw [crlfChars_cons hc, scanString, ih]
      cases scanString quote cs
      · rfl
      · simp [crlfParts, crlfChars_cons hc, crlfChars_cons (show '\\' ≠ '\n' by decide)]
  | case3 c cs _ hc =>
    obtain rfl := LawfulBEq.eq_of_beq hc
    rw [crlfChars_cons hn, scanString_cons hs, if_pos hc]
    simp [crlfParts, crlfChars_cons hn]
  | case4 c cs hlone hc ih =>
    by_cases hbreak : c = '\n'
    · subst hbreak
      rw [crlfChars_newline, scanString_cons (by decide), if_neg (by simpa using hr.symm),
        scanString_cons (by decide), if_neg (by simpa using hn.symm), ih]
      cases scanString quote cs <;> rfl
    · rw [crlfChars_cons hbreak]
      by_cases hslash : c = '\\'
      · subst hslash
        rcases cs with _ | ⟨d, ds⟩
        · simp [scanString, hs.symm]
        · exact absurd rfl (hlone d ds rfl)
      · rw [scanString_cons hslash, if_neg hc, ih]
        cases scanString quote cs
        · rfl
        · simp [crlfParts, crlfChars_cons hbreak]

theorem map_crlfParts_taking (cs : List Char)
    (result : Except LexError (List Char × List Char)) :
    (taking cs result).map crlfParts = taking (crlfChars cs) (result.map crlfParts) := by
  cases result with
  | error e => rfl
  | ok parts => simp [taking, Except.map, crlfParts]

/-- In a string, a line break is passed over. -/
theorem scanValue_inside_break {quote : Char} (hquote : isQuote quote = true) (depth : Nat)
    (start p : Position) (cs : List Char) :
    scanValue depth (.inside quote start) p ('\r' :: '\n' :: cs) =
      taking ['\r', '\n'] (scanValue depth (.inside quote start) (p.next '\n') cs) := by
  obtain ⟨hn, hr, -⟩ := ne_of_isQuote hquote
  rw [scanValue_inside_cons (by decide), if_neg (by simpa using hr.symm),
    scanValue_inside_cons (by decide), if_neg (by simpa using hn.symm), taking_taking]
  rfl

theorem scanValue_crlfChars {depth : Nat} {quoting : Quoting} {p : Position} {cs : List Char}
    (hquote : ∀ quote ∈ quoting.quote?, isQuote quote = true) :
    scanValue depth quoting p (crlfChars cs) = (scanValue depth quoting p cs).map crlfParts := by
  fun_induction scanValue depth quoting p cs with
  | case1 => rfl
  | case2 => rfl
  | case3 depth p c quote start hc d ds ih =>
    obtain rfl := LawfulBEq.eq_of_beq hc
    rw [map_crlfParts_taking, ← ih hquote, crlfChars_cons (by decide)]
    conv => lhs; unfold scanValue
    by_cases hd : d = '\n'
    · -- The backslash takes the carriage return along, and the line feed is passed over.
      subst hd
      obtain ⟨hn, -, -⟩ := ne_of_isQuote (hquote quote rfl)
      simp only [crlfChars_newline]
      rw [if_pos hc, scanValue_inside_cons (by decide), if_neg (by simpa using hn.symm),
        taking_taking]
      rfl
    · simp only [crlfChars_cons hd]
      rw [if_pos hc, crlfChars_cons (by decide), crlfChars_cons hd]
      rfl
  | case4 depth p c quote start hc =>
    obtain rfl := LawfulBEq.eq_of_beq hc
    rfl
  | case5 depth p c cs quote start hc ih =>
    have hslash : c ≠ '\\' := by simpa using hc
    have hstill : ∀ q ∈ (if c == quote then Quoting.outside else .inside quote start).quote?,
        isQuote q = true := by
      split
      · simp [Quoting.quote?]
      · exact hquote
    rw [map_crlfParts_taking, ← ih hstill]
    by_cases hbreak : c = '\n'
    · subst hbreak
      obtain ⟨hn, -, -⟩ := ne_of_isQuote (hquote quote rfl)
      rw [crlfChars_newline, scanValue_inside_break (hquote quote rfl),
        if_neg (by simpa using hn.symm)]
      rfl
    · rw [crlfChars_cons hbreak, scanValue_inside_cons hslash, crlfChars_cons hbreak]
      rfl
  | case6 depth p c cs hc ih =>
    have hbreak := (ne_of_isQuote hc).1
    rw [map_crlfParts_taking, ← ih (by rintro q ⟨⟩; exact hc), crlfChars_cons hbreak, scanValue,
      if_pos hc, crlfChars_cons hbreak]
    rfl
  | case7 depth p c cs hc ho ih =>
    have hbreak : c ≠ '\n' := by
      rintro rfl
      exact absurd ho (by decide)
    rw [map_crlfParts_taking, ← ih (by simp [Quoting.quote?]),
      crlfChars_cons hbreak, scanValue, if_neg hc, if_pos ho,
      crlfChars_cons hbreak]
    rfl
  | case8 depth p c cs hc ho hcl ih =>
    have hbreak : c ≠ '\n' := by
      rintro rfl
      exact absurd hcl (by simp)
    rw [map_crlfParts_taking, ← ih (by simp [Quoting.quote?]),
      crlfChars_cons hbreak, scanValue, if_neg hc, if_neg ho,
      if_pos hcl, crlfChars_cons hbreak]
    rfl
  | case9 depth p c cs hc ho hcl hstop =>
    by_cases hbreak : c = '\n'
    · subst hbreak
      have hdepth : depth = 0 := by simpa using (Bool.and_eq_true_iff.1 hstop).1
      subst hdepth
      rfl
    · rw [crlfChars_cons hbreak, scanValue, if_neg hc, if_neg ho, if_neg hcl, if_pos hstop]
      simp [Except.map, crlfParts, crlfChars_cons hbreak]
  | case10 depth p c cs hc ho hcl hstop ih =>
    rw [map_crlfParts_taking, ← ih (by simp [Quoting.quote?])]
    by_cases hbreak : c = '\n'
    · -- Inside of brackets a line break does not end the value.
      subst hbreak
      have hdepth : (depth == 0) = false := by simpa [isAsciiBlank] using hstop
      rw [crlfChars_newline, scanValue, if_neg (by decide), if_neg (by decide),
        if_neg (by simp), if_neg (by simp [hdepth]), scanValue, if_neg hc, if_neg ho, if_neg hcl,
        if_neg hstop, taking_taking]
      rfl
    · rw [crlfChars_cons hbreak, scanValue, if_neg hc, if_neg ho, if_neg hcl, if_neg hstop,
        crlfChars_cons hbreak]
      rfl

theorem scanGroup_inside_cons {c : Char} (h : c ≠ '\\') (start : Position) (depth : Nat)
    (quote : Char) (opened p : Position) (cs : List Char) :
    scanGroup start depth (.inside quote opened) p (c :: cs) =
      taking [c] (scanGroup start depth (if c == quote then .outside else .inside quote opened)
        (p.next c) cs) := by
  rw [scanGroup.eq_def]
  simp only [beq_false_of_ne h, Bool.false_eq_true, if_false]

theorem scanGroup_crlfChars {start : Position} {depth : Nat} {quoting : Quoting} {p : Position}
    {cs : List Char} (hquote : ∀ quote ∈ quoting.quote?, isQuote quote = true) :
    scanGroup start depth quoting p (crlfChars cs) =
      (scanGroup start depth quoting p cs).map crlfParts := by
  fun_induction scanGroup start depth quoting p cs with
  | case1 => rfl
  | case2 => rfl
  | case3 depth p c quote opened hc d ds ih =>
    obtain rfl := LawfulBEq.eq_of_beq hc
    rw [map_crlfParts_taking, ← ih hquote, crlfChars_cons (by decide)]
    conv => lhs; unfold scanGroup
    by_cases hd : d = '\n'
    · -- The backslash takes the carriage return along, and the line feed is passed over.
      subst hd
      obtain ⟨hn, -, -⟩ := ne_of_isQuote (hquote quote rfl)
      simp only [crlfChars_newline]
      rw [if_pos hc, scanGroup_inside_cons (by decide), if_neg (by simpa using hn.symm),
        taking_taking]
      rfl
    · simp only [crlfChars_cons hd]
      rw [if_pos hc, crlfChars_cons (by decide), crlfChars_cons hd]
      rfl
  | case4 depth p c quote opened hc =>
    obtain rfl := LawfulBEq.eq_of_beq hc
    rfl
  | case5 depth p c cs quote opened hc ih =>
    have hslash : c ≠ '\\' := by simpa using hc
    have hstill : ∀ q ∈ (if c == quote then Quoting.outside else .inside quote opened).quote?,
        isQuote q = true := by
      split
      · simp [Quoting.quote?]
      · exact hquote
    rw [map_crlfParts_taking, ← ih hstill]
    by_cases hbreak : c = '\n'
    · subst hbreak
      obtain ⟨hn, hr, -⟩ := ne_of_isQuote (hquote quote rfl)
      rw [crlfChars_newline, scanGroup_inside_cons (by decide), if_neg (by simpa using hr.symm),
        scanGroup_inside_cons (by decide), if_neg (by simpa using hn.symm), taking_taking]
      rfl
    · rw [crlfChars_cons hbreak, scanGroup_inside_cons hslash, crlfChars_cons hbreak]
      rfl
  | case6 depth p c cs hc ih =>
    have hbreak := (ne_of_isQuote hc).1
    rw [map_crlfParts_taking, ← ih (by rintro q ⟨⟩; exact hc), crlfChars_cons hbreak, scanGroup,
      if_pos hc, crlfChars_cons hbreak]
    rfl
  | case7 depth p c cs hc ho ih =>
    have hbreak : c ≠ '\n' := by
      rintro rfl
      exact absurd ho (by decide)
    rw [map_crlfParts_taking, ← ih (by simp [Quoting.quote?]),
      crlfChars_cons hbreak, scanGroup, if_neg hc, if_pos ho,
      crlfChars_cons hbreak]
    rfl
  | case8 depth p c cs hc ho hcl hdepth =>
    -- The parenthesis that closes the group ends both scans.
    obtain rfl := LawfulBEq.eq_of_beq hcl
    rw [crlfChars_cons (by decide), scanGroup, if_neg hc, if_neg ho, if_pos hcl, if_pos hdepth]
    rfl
  | case9 depth p c cs hc ho hcl hdepth ih =>
    obtain rfl := LawfulBEq.eq_of_beq hcl
    rw [map_crlfParts_taking, ← ih (by simp [Quoting.quote?]),
      crlfChars_cons (by decide), scanGroup, if_neg hc,
      if_neg ho, if_pos hcl, if_neg hdepth]
    rfl
  | case10 depth p c cs hc ho hcl ih =>
    rw [map_crlfParts_taking, ← ih (by simp [Quoting.quote?])]
    by_cases hbreak : c = '\n'
    · subst hbreak
      rw [crlfChars_newline, scanGroup, if_neg (by decide), if_neg (by decide),
        if_neg (by decide), scanGroup, if_neg hc, if_neg ho, if_neg hcl, taking_taking]
      rfl
    · rw [crlfChars_cons hbreak, scanGroup, if_neg hc, if_neg ho, if_neg hcl,
        crlfChars_cons hbreak]
      rfl

/-! ### Attributes -/

theorem scanName_crlfChars (depth : Nat) (cs : List Char) :
    scanName depth (crlfChars cs) = crlfParts (scanName depth cs) := by
  induction cs generalizing depth with
  | nil => rfl
  | cons c cs ih =>
    by_cases hbreak : c = '\n'
    · subst hbreak
      rfl
    · have hends : endsName depth c (crlfChars cs).head? = endsName depth c cs.head? := by
        rw [endsName, endsName, head?_crlfChars_beq (by decide) (by decide)]
      rw [crlfChars_cons hbreak, scanName_cons, scanName_cons, hends, ih]
      split <;> simp [crlfParts, crlfChars_cons hbreak]

theorem readName_crlf {cursor : Cursor} (h : '\r' ∉ cursor.rest) :
    readName cursor.crlf = (readName cursor).map fun (name, written, rest) =>
      (crlfChars name, crlfChars written, crlfChars rest) := by
  obtain ⟨place, rest⟩ := cursor
  rcases rest with _ | ⟨c, cs⟩
  · rfl
  · rw [Cursor.crlf, readName, readName]
    by_cases hbreak : c = '\n'
    · subst hbreak
      rfl
    · simp only [crlfChars_cons hbreak]
      split
      · rename_i hc
        have hquote : isQuote c = true := by
          simp only [isQuote, hc, Bool.true_or]
        rw [scanString_crlfChars hquote]
        cases hs : scanString c cs with
        | none => rfl
        | some parts =>
          obtain ⟨taken, rest⟩ := parts
          obtain ⟨-, body, rfl⟩ := eq_append_of_scanString hs
          simp [Except.map, crlfParts, crlfChars_cons hbreak]
      · rw [← crlfChars_cons hbreak, scanName_crlfChars]
        simp only [crlfParts, isEmpty_crlfChars]
        split
        · exact congrArg Except.error (unexpected_crlf h)
        · rfl

/-- A sign between a name and a value stands on one line. -/
theorem scanAssignment_crlfChars (cs : List Char) :
    scanAssignment (crlfChars cs) = (scanAssignment cs).map fun (sign, escaped, rest) =>
      (crlfChars sign, escaped, crlfChars rest) := by
  unfold scanAssignment
  rw [takeWhile_crlfChars rfl, dropWhile_crlfChars rfl]
  generalize cs.dropWhile isInlineBlank = text
  dsimp only
  rcases text with _ | ⟨c, text⟩
  · rfl
  · by_cases hbreak : c = '\n'
    · subst hbreak
      rfl
    · rw [crlfChars_cons hbreak]
      by_cases hmark : c = '!'
      · subst hmark
        rcases text with _ | ⟨d, text⟩
        · rfl
        · by_cases hbreak : d = '\n'
          · subst hbreak
            rfl
          · rw [crlfChars_cons hbreak]
            by_cases hequals : d = '='
            · simp [hequals, crlfChars]
            · simp [hequals]
      · by_cases hequals : c = '='
        · simp [hequals, crlfChars]
        · simp [hmark, hequals]

@[simp] theorem Cursor.crlf_advance (cursor : Cursor) (taken rest : List Char) :
    cursor.crlf.advance (crlfChars taken) (crlfChars rest) = (cursor.advance taken rest).crlf := by
  simp [Cursor.crlf, Cursor.advance]

@[simp] theorem Cursor.crlf_token (cursor : Cursor) (kind : TokenKind) (taken : List Char) :
    cursor.crlf.token (kind.mapTexts Text.crlf) (crlfChars taken) =
      (cursor.token kind taken).crlf := by
  simp [Cursor.crlf, Cursor.token, Token.crlf]

@[simp] theorem Cursor.crlf_place (cursor : Cursor) : cursor.crlf.place = cursor.place := rfl

@[simp] theorem Cursor.crlf_rest (cursor : Cursor) : cursor.crlf.rest = crlfChars cursor.rest := rfl

theorem readAttribute_crlf {cursor : Cursor} (h : '\r' ∉ cursor.rest) :
    readAttribute cursor.crlf =
      (readAttribute cursor).map fun (token, stop) => (token.crlf, stop.crlf) := by
  unfold readAttribute
  rw [readName_crlf h]
  cases hname : readName cursor with
  | error e => rfl
  | ok parts =>
    obtain ⟨name, written, rest⟩ := parts
    obtain ⟨hrest, -⟩ := readName_eq hname
    simp only [Except.map, bind, Except.bind]
    rw [scanAssignment_crlfChars]
    cases hsign : scanAssignment rest with
    | none =>
      simp only [Option.map_none, pure, Except.pure, ← Cursor.crlf_advance, ← Cursor.crlf_token,
        TokenKind.mapTexts, crlf_ofList]
    | some parts =>
      obtain ⟨sign, escaped, behind⟩ := parts
      obtain ⟨hbehind, blanks, hblanks, hsigned⟩ := scanAssignment_eq hsign
      have hvalue : '\r' ∉ behind.dropWhile isInlineBlank := fun hm => h <| by
        rw [hrest, hbehind]
        exact List.mem_append_right _ (List.mem_append_right _ ((List.dropWhile_suffix _).mem hm))
      simp only [Option.map_some]
      rw [takeWhile_crlfChars rfl, dropWhile_crlfChars rfl, ← crlfChars_append,
        ← crlfChars_append, Cursor.crlf_advance]
      generalize hstart : cursor.advance (written ++ sign ++ behind.takeWhile isInlineBlank)
        (behind.dropWhile isInlineBlank) = start
      have hplain : '\r' ∉ start.rest := hstart ▸ hvalue
      have hscanned : scanValue 0 .outside start.crlf.place start.crlf.rest =
          (scanValue 0 .outside start.place start.rest).map crlfParts :=
        scanValue_crlfChars nofun
      rw [hscanned]
      cases hscan : scanValue 0 .outside start.place start.rest with
      | error e => rfl
      | ok parts =>
        obtain ⟨value, rest⟩ := parts
        simp only [Except.map, crlfParts, isEmpty_crlfChars]
        split
        · exact congrArg Except.error (unexpected_crlf hplain)
        · simp only [pure, Except.pure, ← crlfChars_append, ← Cursor.crlf_advance,
            ← Cursor.crlf_token, TokenKind.mapTexts, crlf_ofList, Option.map_some]

/-- The turns that a loop over a text has, and those of the loop over the text with carriage
    returns, are enough for one character a turn. -/
structure Turns (fuel fuel' : Nat) (cs : List Char) : Prop where
  plain : cs.length < fuel
  broken : (crlfChars cs).length < fuel'

/-- A turn that takes a part of the text leaves enough turns for the rest. -/
theorem Turns.pass {fuel fuel' : Nat} {cs taken rest : List Char}
    (h : Turns (fuel + 1) (fuel' + 1) cs) (hsplit : cs = taken ++ rest) (hne : taken ≠ []) :
    Turns fuel fuel' rest := by
  subst hsplit
  obtain ⟨hplain, hbroken⟩ := h
  have hpos := List.length_pos_iff.2 hne
  have hlt := length_crlfChars_lt hne rest
  rw [List.length_append] at hplain
  exact ⟨by omega, by omega⟩

theorem Turns.exists_succ {fuel fuel' : Nat} {cs : List Char} (h : Turns fuel fuel' cs) :
    ∃ turns turns', fuel = turns + 1 ∧ fuel' = turns' + 1 :=
  ⟨fuel - 1, fuel' - 1, (Nat.sub_add_cancel (Nat.zero_lt_of_lt h.plain)).symm,
    (Nat.sub_add_cancel (Nat.zero_lt_of_lt h.broken)).symm⟩

theorem Turns.skip {fuel fuel' : Nat} {cs taken rest : List Char} (h : Turns fuel fuel' cs)
    (hsplit : cs = taken ++ rest) : Turns fuel fuel' rest := by
  subst hsplit
  obtain ⟨hplain, hbroken⟩ := h
  rw [List.length_append] at hplain
  rw [crlfChars_append, List.length_append] at hbroken
  exact ⟨by omega, by omega⟩

/-- One attribute, and those behind it. -/
theorem readAttributes_cons {start place : Position} {fuel : Nat} {c : Char} {cs : List Char}
    (hc : isSeparator c = false) (hclose : c ≠ ')') :
    readAttributes start (fuel + 1) ⟨place, c :: cs⟩ = (do
      let (token, stop) ← readAttribute ⟨place, c :: cs⟩
      let (others, stop) ← readAttributes start fuel stop
      return (token :: others, stop)) := by
  have hnot : ¬isSeparator c = true := by simp [hc]
  rw [readAttributes]
  dsimp only [Cursor.advance]
  rw [List.takeWhile_cons_of_neg hnot, List.dropWhile_cons_of_neg hnot]
  simp [hclose]

/-- A list of attributes goes on over line breaks. -/
theorem readAttributes_crlf {start : Position} {fuel fuel' : Nat} {cursor : Cursor}
    (hturns : Turns fuel fuel' cursor.rest) (h : '\r' ∉ cursor.rest) :
    readAttributes start fuel' cursor.crlf = (readAttributes start fuel cursor).map
      fun (tokens, stop) => (tokens.map Token.crlf, stop.crlf) := by
  induction fuel generalizing fuel' cursor with
  | zero => exact absurd hturns.plain (Nat.not_lt_zero _)
  | succ fuel ih =>
    obtain ⟨turns, turns', -, rfl⟩ := hturns.exists_succ
    obtain ⟨place, rest⟩ := cursor
    obtain ⟨separators, left, rfl, hseparators, hleft⟩ : ∃ separators left,
        rest = separators ++ left ∧ (∀ c ∈ separators, isSeparator c = true) ∧
          ∀ c ∈ left.head?, isSeparator c = false :=
      ⟨_, _, List.takeWhile_append_dropWhile.symm, fun c hc => List.mem_takeWhile_imp hc,
        head?_dropWhile_eq_false _ _⟩
    have hplain : '\r' ∉ left := fun hm => h (List.mem_append_right _ hm)
    have hseparators' : ∀ c ∈ crlfChars separators, isSeparator c = true := fun c hc =>
      (eq_or_mem_of_mem_crlfChars hc).elim (by rintro rfl; rfl) (hseparators c)
    have hleft' : ∀ c ∈ (crlfChars left).head?, isSeparator c = false := by
      intro c hc
      rw [head?_crlfChars] at hc
      obtain ⟨d, hd, rfl⟩ := Option.map_eq_some_iff.1 hc
      split
      · rename_i hbreak
        exact absurd (hleft d hd) (by rw [hbreak]; decide)
      · exact hleft d hd
    rw [Cursor.crlf, crlfChars_append, readAttributes_append hseparators' hleft',
      readAttributes_append hseparators hleft, Position.after_crlfChars]
    rcases left with _ | ⟨c, cs⟩
    · rfl
    · have hc := hleft c rfl
      have hbreak : c ≠ '\n' := by
        rintro rfl
        exact absurd hc (by decide)
      by_cases hclose : c = ')'
      · subst hclose
        rfl
      · rw [crlfChars_cons hbreak, readAttributes_cons hc hclose, readAttributes_cons hc hclose,
          ← crlfChars_cons hbreak]
        have hread := @readAttribute_crlf ⟨place.after separators, c :: cs⟩ hplain
        rw [Cursor.crlf] at hread
        rw [hread]
        cases hattribute : readAttribute ⟨place.after separators, c :: cs⟩ with
        | error e => rfl
        | ok found =>
          obtain ⟨token, stop⟩ := found
          obtain ⟨kind, written, hwritten, -, -, hat⟩ := exists_readsAttribute hattribute
          dsimp only at hwritten
          have hothers := ih ((hturns.skip rfl).pass hwritten hat.attributeAt.ne_nil)
            fun hm => hplain (hwritten ▸ List.mem_append_right _ hm)
          simp only [Except.map, bind, Except.bind]
          rw [hothers]
          cases readAttributes start fuel stop <;> rfl

end Lexer

end PugLint
