import PugLint.Proofs.Token.Scanner.Elements

/-!
# Scans of lines

The first byte behind the indentation decides what a line is. A scan takes a line as the reader
does, and stops at the end of the line.

* `Scanner.lexKeyword_of`: document types and control lines;
* `Scanner.lexLine_of`: the content of a line.
-/

namespace PugLint

namespace Scanner

open Text Lexer

variable {text rest cs : List Char} {cursor : Cursor} {levels : List Nat} {tokens : List Token}

/-! ### Keywords -/

theorem keywordLine?_append {word more : List Char} (hword : ∀ c ∈ word, c.isLower = true)
    (hmore : ∀ c ∈ more.head?, c.isLower = false) :
    keywordLine? (word ++ more) =
      if more.isEmpty || more.head? == some ' ' then keywordKind? word (trim more) else none := by
  obtain ⟨htake, hdrop⟩ := takeWhile_append_stop hword hmore
  rw [keywordLine?, htake, hdrop]
  rfl

/-- A word ends at the end of its line, or in front of a space. -/
theorem endsWord?_indexOf (h : rest <:+ text) :
    endsWord? text (indexOf text rest) =
      some ((splitLine rest).1.isEmpty || (splitLine rest).1.head? == some ' ') := by
  have hhead := head?_splitLine rest
  rw [endsWord?, endsLine_indexOf h, byte?_indexOf h]
  by_cases hend : isLineEnd rest = true
  · rw [if_pos hend] at hhead ⊢
    rw [List.head?_eq_none_iff.1 hhead]
    rfl
  · rcases rest with _ | ⟨c, cs⟩
    · exact absurd rfl hend
    rw [if_neg hend] at hhead ⊢
    rw [hhead]
    have hne : (splitLine (c :: cs)).1.isEmpty = false := by
      rw [List.isEmpty_eq_false_iff]
      intro hnil
      rw [hnil] at hhead
      cases hhead
    rw [hne, Bool.false_or, List.head?_cons, Option.map_some, Option.map_some,
      firstByte_beq (by decide)]
    rfl

/-- A line with a keyword is one token. -/
theorem lexKeyword_of (h : Stands text cursor) :
    lexKeyword text (State.of text cursor levels tokens) =
      some ((keywordLine? (splitLine cursor.rest).1).map fun kind =>
        State.of text (cursor.advance (splitLine cursor.rest).1 (splitLine cursor.rest).2) levels
          (tokens ++ [cursor.token kind (splitLine cursor.rest).1])) := by
  have hindex : (State.of text cursor levels tokens).index = indexOf text cursor.rest := rfl
  have hstop := h.advance (splitLine_append cursor.rest).symm
  have hof := of_splitLine levels tokens h
  have hend := lineEnd?_indexOf h.suffix
  obtain ⟨word, hword⟩ : ∃ word, cursor.rest.takeWhile Char.isLower = word := ⟨_, rfl⟩
  obtain ⟨back, hback⟩ : ∃ back, cursor.rest.dropWhile Char.isLower = back := ⟨_, rfl⟩
  have hrest : cursor.rest = word ++ back := by
    rw [← hword, ← hback, List.takeWhile_append_dropWhile]
  have hlower : ∀ c ∈ word, c.isLower = true := by
    rw [← hword]
    exact fun c hc => List.mem_takeWhile_imp hc
  have hline := splitLine_append_of_ne (fun c hc => ne_break_of_isLower (hlower c hc)) back
  have hsuffix := h.suffix
  rw [hrest] at hsuffix
  have hbehind : indexOf text (word ++ back) + word.length = indexOf text back := by
    rw [indexOf_behind hsuffix, byteLength_of_forall isAscii_isLower hlower]
  have hmore : ∀ c ∈ (splitLine back).1.head?, c.isLower = false := by
    rw [head?_splitLine]
    split
    · nofun
    · rw [← hback]
      exact head?_dropWhile_eq_false _ _
  have hinside : back <:+ text := (List.suffix_append word back).trans hsuffix
  have hcut : slice? text (indexOf text back) (indexOf text (splitLine back).2) =
      some (splitLine back).1 := slice?_splitLine (h.advance hrest)
  rw [hrest, hline] at hstop hof hend ⊢
  rw [lexKeyword, hindex, bytesFrom?_indexOf h.suffix, some_bind, takeWhile_bytes isAscii_isLower,
    hword, hrest, hbehind]
  dsimp only
  rw [slice?_indexOf hsuffix, some_bind, endsWord?_indexOf hinside, some_bind, hend,
    keywordLine?_append hlower hmore]
  dsimp only at hstop hof ⊢
  split
  · rw [some_bind, hcut, some_bind]
    cases keywordKind? word (trim (splitLine back).1) with
    | none => rfl
    | some kind =>
      dsimp only
      rw [hof, mark_of h hstop]
      rfl
  · rfl

/-! ### Markers -/

/-- A line of text is scanned behind its bar. -/
theorem lexBar_of (bar : List Char) (h : Stands text cursor) (hrest : cursor.rest = bar ++ cs)
    (hbar : bar = ['|', ' '] ∨ bar = ['|'] ∧ cs.head? ≠ some ' ') :
    lexBar text (State.of text cursor levels tokens) =
      some (State.of text (readText (cursor.advance bar cs)).cursor levels
        (tokens ++ (readText (cursor.advance bar cs)).tokens)) := by
  rcases hbar with rfl | ⟨rfl, hblank⟩
  · have hrest : cursor.rest = '|' :: ' ' :: cs := hrest
    have hnext := h.next hrest
    have hbyte : byte? text (State.of text (cursor.advance ['|'] (' ' :: cs)) levels tokens).index =
        some ' ' := byte?_of hnext
    have hstop := hnext.next rfl
    rw [lexBar, skip_one_of h hrest (by decide) (by decide), hbyte, if_pos (beq_self_eq_true _),
      skip_one_of hnext rfl (by decide) (by decide)]
    exact lexRest_of hstop .text
  · have hrest : cursor.rest = '|' :: cs := hrest
    have hnext := h.next hrest
    have hbyte : ¬(byte? text (State.of text (cursor.advance ['|'] cs) levels tokens).index ==
        some ' ') = true := by
      rw [byte?_of hnext, map_firstByte_beq (by decide), beq_iff_eq]
      exact hblank
    rw [lexBar, skip_one_of h hrest (by decide) (by decide), if_neg hbyte]
    exact lexRest_of hnext .text

/-- A comment is scanned up to the end of its line. -/
theorem lexComment_of (marker : List Char) {buffered : Bool} (h : Stands text cursor)
    (hrest : cursor.rest = marker ++ cs)
    (hmarker : marker = ['/', '/', '-'] ∧ buffered = false ∨
      marker = ['/', '/'] ∧ cs.head? ≠ some '-' ∧ buffered = true) :
    lexComment text (State.of text cursor levels tokens) =
      some (State.of text
        (cursor.advance (splitLine cursor.rest).1 (splitLine cursor.rest).2) levels
        (tokens ++ [cursor.token
          (.comment (String.ofList ((splitLine cursor.rest).1.drop marker.length)) buffered)
          (splitLine cursor.rest).1])) := by
  have hindex : (State.of text cursor levels tokens).index = indexOf text cursor.rest := rfl
  have hstop := h.advance (splitLine_append cursor.rest).symm
  have hof := of_splitLine levels tokens h
  have hslashes : cursor.rest = ['/', '/'] ++ (marker.drop 2 ++ cs) := by
    rcases hmarker with ⟨rfl, -⟩ | ⟨rfl, -⟩ <;> exact hrest
  have hbyte : byte? text ((State.of text cursor levels tokens).index + 2) =
      (marker.drop 2 ++ cs).head?.map firstByte := by
    have hsuffix := h.suffix
    rw [hslashes] at hsuffix
    have hbehind := indexOf_behind hsuffix
    rw [← hslashes] at hbehind
    rw [hindex, ← byte?_indexOf ((List.suffix_append _ _).trans hsuffix), hbehind]
    rfl
  have hdash : (byte? text ((State.of text cursor levels tokens).index + 2) != some '-') =
      buffered := by
    rw [hbyte, bne, map_firstByte_beq (by decide)]
    rcases hmarker with ⟨rfl, rfl⟩ | ⟨rfl, hhead, rfl⟩
    · rfl
    · have hnot : (cs.head? == some '-') = false := beq_eq_false_iff_ne.2 hhead
      exact congrArg not hnot
  have hsize : byteLength marker = if buffered then 2 else 3 := by
    rcases hmarker with ⟨rfl, rfl⟩ | ⟨rfl, -, rfl⟩ <;> rfl
  have hplain : ∀ c ∈ marker, c ≠ '\n' ∧ c ≠ '\r' := by
    rcases hmarker with ⟨rfl, -⟩ | ⟨rfl, -⟩ <;> simp
  have hslice := slice?_behind levels tokens h hrest hplain hsize
  rw [lexComment, hdash, hindex, lineEnd?_indexOf h.suffix, some_bind, ← hindex, hslice, some_bind,
    hof, mark_of h hstop]
  rfl

/-- The name of a mixin is scanned behind its sign, and is not empty. -/
theorem lexCall_of (h : Stands text cursor) (hrest : cursor.rest = '+' :: cs) :
    lexCall text (State.of text cursor levels tokens) =
      done (if (cs.takeWhile isLiteralChar).isEmpty then .error (Lexer.unexpected cursor)
        else .ok (State.of text
          (cursor.advance ('+' :: cs.takeWhile isLiteralChar) (cs.dropWhile isLiteralChar)) levels
          (tokens ++ [cursor.token (.call (String.ofList (cs.takeWhile isLiteralChar)))
            ('+' :: cs.takeWhile isLiteralChar)]))) := by
  have hnext := h.next hrest
  have hsplit : (cursor.advance ['+'] cs).rest =
      cs.takeWhile isLiteralChar ++ cs.dropWhile isLiteralChar :=
    List.takeWhile_append_dropWhile.symm
  have hskip := skipWhile_of levels tokens hnext isAscii_isLiteralChar rfl
  have hindex : (State.of text cursor levels tokens).index + 1 =
      (State.of text (cursor.advance ['+'] cs) levels tokens).index :=
    congrArg State.index (skip_one_of h hrest (by decide) (by decide))
  have hempty := index_beq_of levels tokens hnext hsplit
  have hslice := slice?_of levels tokens hnext hsplit
  have hstop := hnext.advance hsplit
  have hbehind : (cursor.advance ['+'] cs).rest = cs := rfl
  rw [hbehind] at hskip
  rw [lexCall, skip_one_of h hrest (by decide) (by decide), hskip, lift_bind, hindex, hempty]
  by_cases hnil : (cs.takeWhile isLiteralChar).isEmpty = true
  · have hstop : cursor.rest = ['+'] ++ cs := hrest
    have hsuffix := h.suffix
    have hback := goTo_of levels tokens h hstop (by decide) (rfl : _ = [] ++ _) List.not_mem_nil
    have hminus : minus? (State.of text (cursor.advance ['+'] cs) levels tokens).index 1 =
        some (indexOf text cursor.rest) := by
      rw [hrest] at hsuffix ⊢
      exact minus?_indexOf (by decide) hsuffix
    rw [advance_nil rfl] at hback
    rw [List.isEmpty_iff.1 hnil] at hsplit ⊢
    rw [List.nil_append] at hsplit
    rw [advance_nil hsplit, List.isEmpty_nil, if_pos rfl, if_pos rfl, hminus, lift_bind, hback,
      unexpected_of h]
    rfl
  · rw [if_neg hnil, if_neg hnil, hslice, lift_bind]
    rw [advance_advance] at hstop ⊢
    rw [mark_of h hstop]
    rfl

/-! ### Contents of lines -/

/-- A pair of bytes is a pair of characters. -/
theorem byte?_pair_of {c d e : Char} (h : Stands text cursor) (hrest : cursor.rest = c :: cs)
    (hd : d.toNat < 128) (he : e.toNat < 128) :
    (c == d && byte? text ((State.of text cursor levels tokens).index + 1) == some e) =
      [d, e].isPrefixOf (c :: cs) := by
  have hstarts : [d, e].isPrefixOf (c :: cs) = (d == c && [e].isPrefixOf cs) := rfl
  rw [hstarts, Bool.beq_comm (a := d)]
  by_cases hc : c = d
  · subst hc
    rw [byte?_of_succ h hrest hd, map_firstByte_beq he]
    congr 1
    rcases cs with _ | ⟨f, cs⟩
    · rfl
    · rw [List.head?_cons, List.isPrefixOf, List.isPrefixOf, Bool.and_true, Bool.beq_comm]
      rfl
  · rw [beq_eq_false_iff_ne.2 hc, Bool.false_and, Bool.false_and]

/-- The content of a line is scanned up to the end of the line. -/
theorem lexLine_of (levels : List Nat) (tokens : List Token) (h : Stands text cursor) :
    lexLine text (State.of text cursor levels tokens) =
      behindLine text levels tokens (readLine cursor) := by
  obtain ⟨place, rest⟩ := cursor
  rcases rest with _ | ⟨c, cs⟩
  · have hread : readLine ⟨place, []⟩ = .ok ⟨[], ⟨place, []⟩, false⟩ := rfl
    rw [lexLine, byte?_of h, hread, behindLine, Except.map, List.append_nil]
    rfl
  have hbyte : byte? text (State.of text ⟨place, c :: cs⟩ levels tokens).index =
      some (firstByte c) := by
    rw [byte?_of h]
    rfl
  rw [lexLine, hbyte]
  dsimp only
  simp (disch := decide) only [firstByte_beq, isAscii_isLower.firstByte]
  rw [byte?_pair_of h rfl (by decide) (by decide), byte?_pair_of h rfl (by decide) (by decide)]
  -- Text behind a bar.
  by_cases hbar : (c == '|') = true
  · obtain rfl := beq_iff_eq.1 hbar
    rw [if_pos hbar]
    by_cases hblank : cs.head? = some ' '
    · obtain ⟨behind, rfl⟩ := List.head?_eq_some_iff.1 hblank
      rw [lexBar_of ['|', ' '] h rfl (.inl rfl)]
      rfl
    · rw [lexBar_of ['|'] h rfl (.inr ⟨rfl, hblank⟩), readLine_bar hblank]
      rfl
  rw [if_neg hbar]
  -- Markup and comments.
  by_cases hmarkup : (c == '<') = true
  · obtain rfl := beq_iff_eq.1 hmarkup
    rw [if_pos hmarkup, lexRest_of h]
    rfl
  rw [if_neg hmarkup]
  by_cases hcomment : ['/', '/'].isPrefixOf (c :: cs) = true
  · obtain ⟨behind, hbehind⟩ := List.isPrefixOf_iff_prefix.1 hcomment
    obtain ⟨rfl, rfl⟩ := List.cons.inj hbehind
    rw [if_pos hcomment]
    by_cases hdash : behind.head? = some '-'
    · obtain ⟨body, rfl⟩ := List.head?_eq_some_iff.1 hdash
      rw [lexComment_of ['/', '/', '-'] h rfl (.inl ⟨rfl, rfl⟩)]
      rfl
    · rw [lexComment_of ['/', '/'] h rfl (.inr ⟨rfl, hdash, rfl⟩)]
      exact congrArg (behindLine text levels tokens) (readLine_comment hdash rfl place).symm
  rw [if_neg hcomment]
  -- Code.
  by_cases hdash : (c == '-') = true
  · obtain rfl := beq_iff_eq.1 hdash
    have hcode : lexCode text 1 false _ = _ :=
      lexCode_of levels tokens .plain h rfl
    rw [if_pos hdash, hcode]
    rfl
  rw [if_neg hdash]
  by_cases hequals : (c == '=') = true
  · obtain rfl := beq_iff_eq.1 hequals
    have hcode : lexCode text 1 true _ = _ :=
      lexCode_of levels tokens .escaped h rfl
    rw [if_pos hequals, hcode]
    rfl
  rw [if_neg hequals]
  by_cases hraw : ['!', '='].isPrefixOf (c :: cs) = true
  · obtain ⟨behind, hbehind⟩ := List.isPrefixOf_iff_prefix.1 hraw
    obtain ⟨rfl, rfl⟩ := List.cons.inj hbehind
    have hcode : lexCode text 2 true _ = _ :=
      lexCode_of levels tokens .raw h rfl
    rw [if_pos hraw, hcode]
    rfl
  rw [if_neg hraw]
  -- The use of a mixin, and its attributes.
  by_cases hplus : (c == '+') = true
  · obtain rfl := beq_iff_eq.1 hplus
    have hread : readLine ⟨place, '+' :: cs⟩ =
        if (cs.takeWhile isLiteralChar).isEmpty then .error (Lexer.unexpected ⟨place, '+' :: cs⟩)
        else
          (readElement ((cs.dropWhile isLiteralChar).length + 1) true
            ((⟨place, '+' :: cs⟩ : Cursor).advance ('+' :: cs.takeWhile isLiteralChar)
              (cs.dropWhile isLiteralChar))).map
            (.prepending [(⟨place, '+' :: cs⟩ : Cursor).token
              (.call (String.ofList (cs.takeWhile isLiteralChar)))
              ('+' :: cs.takeWhile isLiteralChar)]) := rfl
    have hsplit : '+' :: cs =
        '+' :: cs.takeWhile isLiteralChar ++ cs.dropWhile isLiteralChar := by
      rw [List.cons_append, List.takeWhile_append_dropWhile]
    have hstop := h.advance hsplit
    rw [if_pos hplus, lexCall_of h rfl, hread]
    by_cases hnil : (cs.takeWhile isLiteralChar).isEmpty = true
    · rw [if_pos hnil, if_pos hnil]
      rfl
    · rw [if_neg hnil, if_neg hnil, done_bind, behindLine_prepending]
      exact lexElement_of _ _ true hstop (Nat.lt_succ_self _)
  rw [if_neg hplus]
  -- Keywords, and elements.
  have helement := lexElement_of levels tokens false h (Nat.lt_succ_self (c :: cs).length)
  have hhead : ∀ d ∈ (c :: cs).head?, d ∉ ['|', '<', '-', '=', '+'] := by
    rintro d ⟨⟩
    simp only [beq_iff_eq] at hbar hmarkup hdash hequals hplus
    simp only [List.mem_cons, List.not_mem_nil, or_false, hbar, hmarkup, hdash, hequals, hplus,
      not_false_eq_true]
  rw [List.isPrefixOf_iff_prefix] at hcomment hraw
  have hread := readLine_eq (List.cons_ne_nil c cs) hhead hcomment hraw place
  rw [hread]
  by_cases hlower : c.isLower = true
  · rw [if_pos hlower, lexKeyword_of h, lift_bind]
    cases hkeyword : keywordLine? (splitLine (c :: cs)).1 with
    | none => exact helement
    | some kind => rfl
  · have hkeyword : keywordLine? (splitLine (c :: cs)).1 = none := by
      refine Option.eq_none_iff_forall_ne_some.2 fun kind hkind => ?_
      obtain ⟨d, ds, hline, hd⟩ := exists_cons_of_keywordLine? hkind
      have happend := splitLine_append (c :: cs)
      rw [hline, List.cons_append] at happend
      obtain rfl := (List.cons.inj happend).1
      exact hlower hd
    rw [if_neg hlower, hkeyword]
    exact helement

end Scanner

end PugLint
