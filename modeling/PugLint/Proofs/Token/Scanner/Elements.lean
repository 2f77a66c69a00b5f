import PugLint.Proofs.Token.Scanner.Attributes
import PugLint.Proofs.Token.Variation

/-!
# Scans of elements

The head of an element is its name, classes and ids, lists and spreads of attributes, and what
ends it. A scan goes back over the joints at the end of a name, and stops where the reader does in
every other part.

* `Scanner.lexTag_of`, `Scanner.lexLiteral_of`, `Scanner.lexSpread_of`: parts of a head;
* `Scanner.lexElement_of`: an element up to the end of its line.
-/

namespace PugLint

namespace Scanner

open Text Lexer

variable {text rest marker cs : List Char} {cursor : Cursor} {levels : List Nat}
  {tokens : List Token}

/-! ### Names -/

/-- One line holds the states at two of its places. -/
theorem goTo_of (levels : List Nat) (tokens : List Token) {taken taken' rest' : List Char}
    (h : Stands text cursor) (hrest : cursor.rest = taken ++ rest) (hline : '\n' ∉ taken)
    (hrest' : cursor.rest = taken' ++ rest') (hline' : '\n' ∉ taken') :
    (State.of text (cursor.advance taken rest) levels tokens).goTo (indexOf text rest') =
      State.of text (cursor.advance taken' rest') levels tokens := by
  rw [of_advance h hrest hline, of_advance h hrest' hline']
  rfl

/-- A scan goes back to the end of a name, which holds more than joints. -/
theorem backUp_of (levels : List Nat) (tokens : List Token) {front joints : List Char}
    (h : Stands text cursor) (hrest : cursor.rest = front ++ joints ++ rest)
    (hline : '\n' ∉ front ++ joints)
    (hfront : front ≠ []) (hlast : ∀ c ∈ front.getLast?, isJoint c = false)
    (hjoints : ∀ c ∈ joints, isJoint c = true) :
    backUp text (State.of text cursor levels tokens).index
        (State.of text (cursor.advance (front ++ joints) rest) levels tokens) =
      some (State.of text (cursor.advance front (joints ++ rest)) levels tokens) := by
  have hjoint : IsAscii isJoint := (isAscii_beq (by decide)).or (isAscii_beq (by decide))
  have hindex : (State.of text cursor levels tokens).index = indexOf text cursor.rest := rfl
  have hstate (taken rest : List Char) :
      (State.of text (cursor.advance taken rest) levels tokens).index = indexOf text rest := rfl
  have hpos : 0 < byteLength front := by
    obtain ⟨c, more, rfl⟩ := List.exists_cons_of_ne_nil hfront
    exact Nat.add_pos_left c.utf8Size_pos _
  induction joints using List.reverseRecOn generalizing rest with
  | nil =>
    rw [List.append_nil] at hrest hline ⊢
    rw [List.nil_append, backUp_def, hindex, hstate]
    -- In front of the joints the last character is none of them, or the start is reached.
    by_cases hlong : indexOf text cursor.rest + 1 < indexOf text rest
    · obtain ⟨body, c, rfl⟩ := (List.eq_nil_or_concat front).resolve_left hfront
      rw [List.concat_eq_append] at hrest hlast ⊢
      have hsuffix : c :: rest <:+ text := by
        have hwhole := h.suffix
        rw [hrest, List.append_assoc] at hwhole
        exact (List.suffix_append body _).trans hwhole
      obtain ⟨b, hb, hbyte⟩ := byte?_before hsuffix
      have hlone : ¬isJoint b = true := by
        rw [hjoint.mem_bytesOf hb, hlast c List.getLast?_concat]
        exact Bool.false_ne_true
      rw [if_pos hlong, minus?_of_le (b := 1) (by omega), some_bind, hbyte, some_bind]
      exact if_neg hlone
    · rw [if_neg hlong]
  | append_singleton joints d ih =>
    obtain ⟨hmore, hd⟩ := List.forall_mem_append.1 hjoints
    have hd : isJoint d = true := hd d (List.mem_singleton_self d)
    have hassoc : front ++ (joints ++ [d]) = front ++ joints ++ [d] := (List.append_assoc ..).symm
    have hrest' : cursor.rest = front ++ joints ++ (d :: rest) := by
      rw [hrest, hassoc, List.append_assoc _ [d]]
      rfl
    have hline' : '\n' ∉ front ++ joints := by
      rw [hassoc] at hline
      exact fun hmem => hline (List.mem_append_left _ hmem)
    have hsuffix := h.suffix
    rw [hrest'] at hsuffix
    have hlast' := (List.suffix_append (front ++ joints) _).trans hsuffix
    have hcons := indexOf_cons (hjoint d hd) hlast'
    have hlong : indexOf text cursor.rest + 1 < indexOf text rest := by
      have hbehind := indexOf_behind hsuffix
      rw [← hrest', byteLength_append] at hbehind
      omega
    have hbyte : byte? text (indexOf text (d :: rest)) = some d := by
      rw [byte?_indexOf hlast', map_firstByte_cons (hjoint d hd)]
    rw [backUp_def, hindex, hstate, if_pos hlong, minus?_indexOf (hjoint d hd) hlast', some_bind,
      hbyte, some_bind]
    refine (if_pos hd).trans ?_
    rw [goTo_of _ _ h hrest hline hrest' hline', List.append_assoc]
    exact ih hrest' hline' hmore

/-- A tag name is scanned up to the joints at its end. -/
theorem lexTag_of {c : Char} (h : Stands text cursor) (hrest : cursor.rest = c :: cs)
    (hc : (c.isAlphanum || c == '_') = true) :
    lexTag text (State.of text cursor levels tokens) =
      some (State.of text (cursor.advance (scanTag cursor.rest).1 (scanTag cursor.rest).2) levels
        (tokens ++ [cursor.token (.tag (String.ofList (scanTag cursor.rest).1))
          (scanTag cursor.rest).1])) := by
  obtain ⟨front, joints, hrun, hjoints, hlast⟩ :=
    exists_append_joints (cursor.rest.takeWhile isTagChar)
  have hsplit : cursor.rest = front ++ joints ++ cursor.rest.dropWhile isTagChar := by
    rw [← hrun, List.takeWhile_append_dropWhile]
  have hline : '\n' ∉ front ++ joints := by
    rw [← hrun]
    exact fun hmem => absurd (List.mem_takeWhile_imp hmem) (by decide)
  -- The first character is no joint, so the name is not empty.
  have hfront : front ≠ [] := by
    rintro rfl
    have htag : isTagChar c = true := Bool.or_eq_true_iff.2 (.inl (Bool.or_eq_true_iff.2 (.inl hc)))
    rw [hrest, List.takeWhile_cons_of_pos htag, List.nil_append] at hrun
    have hjoint := hjoints c (hrun ▸ List.mem_cons_self)
    simp only [isJoint, Bool.or_eq_true, beq_iff_eq] at hjoint
    rcases hjoint with rfl | rfl <;> exact absurd hc (by decide)
  have hskip := skipWhile_of levels tokens h isAscii_isTagChar rfl
  have hback := backUp_of levels tokens h hsplit hline hfront hlast hjoints
  rw [List.append_assoc] at hsplit
  have hslice := slice?_of levels tokens h hsplit
  rw [hrun] at hskip
  rw [lexTag, hskip, some_bind, hback, some_bind, hslice, some_bind, mark_of h (h.advance hsplit),
    scanTag_of_takeWhile hrun hjoints hlast]
  rfl

/-- A class or an id is scanned behind its sign. -/
theorem lexLiteral_of {c : Char} (h : Stands text cursor) (hrest : cursor.rest = c :: cs)
    (hc : c.toNat < 128) (hne : c ≠ '\n') (kind : String → TokenKind) :
    lexLiteral text kind (State.of text cursor levels tokens) =
      some (State.of text
        (cursor.advance (c :: cs.takeWhile isLiteralChar) (cs.dropWhile isLiteralChar)) levels
        (tokens ++ [cursor.token (kind (String.ofList (cs.takeWhile isLiteralChar)))
          (c :: cs.takeWhile isLiteralChar)])) := by
  have hnext := h.next hrest
  have hbehind : (cursor.advance [c] cs).rest = cs := rfl
  have hsplit : cs = cs.takeWhile isLiteralChar ++ cs.dropWhile isLiteralChar :=
    List.takeWhile_append_dropWhile.symm
  have hskip := skipWhile_of levels tokens hnext isAscii_isLiteralChar rfl
  have hindex : (State.of text cursor levels tokens).index + 1 =
      (State.of text (cursor.advance [c] cs) levels tokens).index :=
    congrArg State.index (skip_one_of h hrest hc hne)
  have hslice := slice?_of levels tokens hnext hsplit
  have hstop := hnext.advance hsplit
  rw [hbehind] at hskip
  rw [advance_advance] at hslice hstop hskip
  rw [lexLiteral, skip_one_of h hrest hc hne, hskip, some_bind, hindex, hslice, some_bind,
    mark_of h hstop]
  rfl

/-! ### Code and spreads -/

/-- Behind a marker, the rest of a line is cut out. -/
theorem slice?_behind (levels : List Nat) (tokens : List Token) {size : Nat}
    (h : Stands text cursor) (hrest : cursor.rest = marker ++ cs)
    (hmarker : ∀ c ∈ marker, c ≠ '\n' ∧ c ≠ '\r') (hsize : byteLength marker = size) :
    slice? text (min ((State.of text cursor levels tokens).index + size)
        (indexOf text (splitLine cursor.rest).2)) (indexOf text (splitLine cursor.rest).2) =
      some ((splitLine cursor.rest).1.drop marker.length) := by
  obtain ⟨more, hmore⟩ := exists_line_eq_append hrest hmarker
  have happend := splitLine_append cursor.rest
  rw [hmore, List.append_assoc] at happend
  have hsuffix := h.suffix
  rw [← happend] at hsuffix
  have hfirst := indexOf_behind hsuffix
  have hmiddle := (List.suffix_append marker _).trans hsuffix
  have hbehind := indexOf_behind hmiddle
  have hmin : min ((State.of text cursor levels tokens).index + size)
      (indexOf text (splitLine cursor.rest).2) =
      indexOf text (more ++ (splitLine cursor.rest).2) := by
    rw [happend, hsize] at hfirst
    rw [hfirst, Nat.min_eq_left]
    · rfl
    · rw [hbehind, hfirst]
      exact Nat.le_add_right _ _
  rw [hmin, slice?_indexOf hmiddle, hmore, List.drop_left]

/-- Code is scanned up to the end of its line. -/
theorem lexCode_of (levels : List Nat) (tokens : List Token) {buffered : Bool}
    (hmarker : CodeMarker marker buffered) (h : Stands text cursor)
    (hrest : cursor.rest = marker ++ cs) :
    lexCode text marker.length buffered (State.of text cursor levels tokens) =
      some (trimLeft ((splitLine cursor.rest).1.drop marker.length),
        State.of text (readCode cursor marker.length buffered).cursor levels
          (tokens ++ (readCode cursor marker.length buffered).tokens)) := by
  have hindex : (State.of text cursor levels tokens).index = indexOf text cursor.rest := rfl
  have hstop := h.advance (splitLine_append cursor.rest).symm
  have hplain : ∀ c ∈ marker, c ≠ '\n' ∧ c ≠ '\r' := by cases hmarker <;> simp
  have hsize : byteLength marker = marker.length := by cases hmarker <;> rfl
  have hslice := slice?_behind levels tokens h hrest hplain hsize
  rw [hindex] at hslice
  rw [lexCode, hindex, lineEnd?_indexOf h.suffix, some_bind, hslice, some_bind,
    of_splitLine _ _ h]
  dsimp only
  rw [mark_of h hstop]
  rfl

/-- A text is looked for in what is left. -/
theorem startsWith?_of (h : Stands text cursor) (start : List Char) :
    startsWith? text start (State.of text cursor levels tokens).index =
      some (start.isPrefixOf cursor.rest) := by
  have hend : indexOf text [] = (bytes text).length := by
    rw [length_bytes]
    rfl
  have hsuffix := h.suffix
  rw [← List.append_nil cursor.rest] at hsuffix
  have hslice := slice?_indexOf hsuffix
  rw [List.append_nil, hend] at hslice
  rw [startsWith?, State.of, hslice]
  rfl

/-- A spread of attributes is scanned up to the parenthesis that closes it. -/
theorem lexSpread_of (h : Stands text cursor) (hrest : cursor.rest = "&attributes(".toList ++ cs) :
    lexSpread text (State.of text cursor levels tokens) =
      done ((scanGroup (cursor.place.after "&attributes".toList) 1 .outside
          (cursor.place.after "&attributes(".toList) cs).map fun found =>
        State.of text (cursor.advance ("&attributes(".toList ++ found.1) found.2) levels
          (tokens ++ [cursor.token (.andAttributes (String.ofList found.1.dropLast))
            ("&attributes(".toList ++ found.1)])) := by
  have hopened : cursor.rest = "&attributes".toList ++ ('(' :: cs) := hrest
  have hstart := h.advance hopened
  have hskip := skip_of levels tokens h hopened (by decide)
    (n := "&attributes".length) (by decide)
  have hbehind : (cursor.advance "&attributes".toList ('(' :: cs)).advance ['('] cs =
      cursor.advance "&attributes(".toList cs := advance_advance _ _ _ _ _
  rw [lexSpread, place?_of h, lift_bind]
  dsimp only
  rw [hskip, place?_of hstart, lift_bind, skipBalanced_opening _ hstart rfl, hbehind]
  have hplace : (cursor.advance "&attributes".toList ('(' :: cs)).place.after ['('] =
      cursor.place.after "&attributes(".toList := rfl
  rw [hplace]
  dsimp only [Cursor.advance]
  cases hscan : scanGroup (cursor.place.after "&attributes".toList) 1 .outside
      (cursor.place.after "&attributes(".toList) cs with
  | error fault => rfl
  | ok found =>
    obtain ⟨group, rest⟩ := found
    obtain ⟨rfl, body, rfl⟩ := eq_append_of_scanGroup hscan
    have hgroup : cursor.rest = "&attributes(".toList ++ (body ++ [')']) ++ rest := by
      rw [hrest, List.append_assoc _ (body ++ [')'])]
    have hstop := h.advance hgroup
    have hbehind : after text ⟨cursor.place.after "&attributes(".toList, body ++ [')'] ++ rest⟩
        levels tokens (.ok (body ++ [')'], rest)) =
        done (.ok (State.of text (cursor.advance ("&attributes(".toList ++ (body ++ [')'])) rest)
          levels tokens)) :=
      congrArg (fun cursor => done (.ok (State.of text cursor levels tokens)))
        (advance_advance cursor "&attributes(".toList _ (body ++ [')'] ++ rest) rest)
    obtain ⟨stop, hminus, hvalue⟩ := slice?_between (by decide) (by decide) hstart.suffix
    rw [hbehind, done_bind, place?_of hstop]
    dsimp only [State.of, Cursor.advance] at hminus hvalue ⊢
    rw [hminus, lift_bind, hvalue, lift_bind, lift_bind, Except.map, List.dropLast_concat]
    rfl

/-! ### Ends of a head -/

/-- A dot is taken with the blanks behind it, up to the end of the line. -/
theorem lexDot_of (h : Stands text cursor) (hrest : cursor.rest = '.' :: cs) :
    lexDot text (State.of text cursor levels tokens) =
      done (if isLineEnd (cs.dropWhile isInlineBlank) then
          .ok (State.of text
            (cursor.advance ('.' :: cs.takeWhile isInlineBlank) (cs.dropWhile isInlineBlank)) levels
            (tokens ++ [cursor.token .dot ['.']]))
        else .error (Lexer.unexpected cursor)) := by
  have hnext := h.next hrest
  have hahead : indexOf text cs + measureIndent text (indexOf text cs) =
      indexOf text (cs.dropWhile isInlineBlank) :=
    index_add_measureIndent levels tokens hnext
  have hwidth := skip_measureIndent levels
    (tokens ++ [cursor.token .dot ['.']]) hnext
  rw [advance_advance] at hwidth
  have hsuffix : cs.dropWhile isInlineBlank <:+ text :=
    (List.dropWhile_suffix isInlineBlank).trans hnext.suffix
  rw [lexDot, index_succ_of _ _ h hrest (by decide), hahead, endsLine_indexOf hsuffix]
  by_cases hend : isLineEnd (cs.dropWhile isInlineBlank) = true
  · rw [if_pos hend, if_pos hend, skip_one_of h hrest (by decide) (by decide), mark_of h hnext,
      lift_bind]
    exact congrArg (fun s => done (.ok s)) hwidth
  · rw [if_neg hend, if_neg hend, unexpected_of h]
    rfl

/-- A list of attributes is scanned from in front of its parenthesis. -/
theorem lexList_of (h : Stands text cursor) (hrest : cursor.rest = '(' :: cs) :
    lexList text (State.of text cursor levels tokens) =
      done ((readAttributes cursor.place (cs.length + 1) (cursor.advance ['('] cs)).map fun found =>
        State.of text found.2 levels
          (tokens ++ (cursor.token .startAttributes ['('] :: found.1))) := by
  have hnext := h.next hrest
  rw [lexList, place?_of h, lift_bind, skip_one_of h hrest (by decide) (by decide), mark_of h hnext,
    lift_bind, lexAttributes_of cursor.place hnext (Nat.lt_succ_self cs.length)]
  cases readAttributes cursor.place (cs.length + 1) (cursor.advance ['('] cs) with
  | error fault => rfl
  | ok found =>
    exact congrArg (fun tokens => done (.ok (State.of text found.2 levels tokens)))
      (List.append_assoc tokens [_] found.1)

/-- A colon is taken with the blanks behind it. -/
theorem lexColon_of (h : Stands text cursor) (hrest : cursor.rest = ':' :: cs) :
    lexColon text (State.of text cursor levels tokens) =
      some (State.of text
        (cursor.advance (':' :: cs.takeWhile isInlineBlank) (cs.dropWhile isInlineBlank)) levels
        (tokens ++ [cursor.token .colon [':']])) := by
  have hnext := h.next hrest
  have hwidth := skip_measureIndent levels
    (tokens ++ [cursor.token .colon [':']]) hnext
  rw [advance_advance] at hwidth
  rw [lexColon, skip_one_of h hrest (by decide) (by decide), mark_of h hnext, some_bind]
  exact congrArg some hwidth

/-- What the reader takes behind the blank that ends a head. -/
def inlineText (cursor : Cursor) (c : Char) (cs : List Char) : LineTokens :=
  if (trim (splitLine cs).1).isEmpty then
    ⟨[], cursor.advance (c :: (splitLine cs).1) (splitLine cs).2, false⟩
  else readText (cursor.advance [c] cs)

theorem lexInline_of {c : Char} (h : Stands text cursor) (hrest : cursor.rest = c :: cs)
    (hc : isInlineBlank c = true) :
    lexInline text (State.of text cursor levels tokens) =
      some (State.of text (inlineText cursor c cs).cursor levels
        (tokens ++ (inlineText cursor c cs).tokens)) := by
  have hnext := h.next hrest
  have hne : c ≠ '\n' := ne_newline_of_isInlineBlank hc
  have hbehind : (cursor.advance [c] cs).rest = cs := rfl
  have hindex : (State.of text (cursor.advance [c] cs) levels tokens).index =
      indexOf text (cursor.advance [c] cs).rest := rfl
  have hstop := of_splitLine levels tokens hnext
  rw [advance_advance] at hstop
  rw [lexInline, skip_one_of h hrest (isAscii_isInlineBlank c hc) hne, inlineText, hindex,
    lineEnd?_indexOf hnext.suffix, some_bind, slice?_splitLine hnext, some_bind, hbehind]
  rw [hbehind] at hstop
  split
  · rw [hstop, List.append_nil]
    rfl
  · exact lexRest_of hnext .text

/-! ### Elements -/

/-- The state behind what the reader takes of a line, and whether a block of raw text may follow. -/
def behindLine (text : List Char) (levels : List Nat) (tokens : List Token)
    (result : Except LexError LineTokens) : Scan (Bool × State) :=
  done (result.map fun line =>
    (line.opensBlock, State.of text line.cursor levels (tokens ++ line.tokens)))

theorem behindLine_prepending (new : List Token) (result : Except LexError LineTokens) :
    behindLine text levels tokens (result.map (.prepending new)) =
      behindLine text levels (tokens ++ new) result := by
  cases result with
  | error fault => rfl
  | ok line =>
    have htokens : tokens ++ (line.prepending new).tokens = tokens ++ new ++ line.tokens :=
      (List.append_assoc ..).symm
    exact congrArg
      (fun tokens => done (.ok (line.opensBlock, State.of text line.cursor levels tokens))) htokens

/-- A character behind those of ASCII stands in no head. -/
theorem lexElement_of_le {c : Char} (h : Stands text cursor) (hrest : cursor.rest = c :: cs)
    (hc : ¬c.toNat < 128) (started : Bool) (fuel : Nat) :
    lexElement text started (State.of text cursor levels tokens) =
      behindLine text levels tokens (readElement (fuel + 1) started cursor) := by
  have hne {d : Char} (hd : d.toNat < 128) : (c == d) = false :=
    Bool.eq_false_iff.2 fun h => hc (isAscii_beq hd c h)
  have hbyte : byte? text (State.of text cursor levels tokens).index = some (firstByte c) := by
    rw [byte?_of h, hrest]
    rfl
  have hstop {p : Char → Bool} (hp : IsAscii p) : p c = false :=
    Bool.eq_false_iff.2 fun h => hc (hp c h)
  have hend : isLineEnd (c :: cs) = false := by
    rw [isLineEnd_cons, hstop (isAscii_beq (d := '\n') (by decide)), hne (by decide)]
    rfl
  have hstarts : "&attributes(".toList.isPrefixOf (c :: cs) =
      ('&' == c && "attributes(".toList.isPrefixOf cs) := rfl
  have hamp : ('&' == c) = false := by
    rw [Bool.beq_comm]
    exact hne (by decide)
  have hindex : (State.of text cursor levels tokens).index = indexOf text cursor.rest := rfl
  have hread : readElement (fuel + 1) started cursor = .error (Lexer.unexpected cursor) := by
    obtain ⟨place, rest⟩ := cursor
    obtain rfl : rest = c :: cs := hrest
    rw [readElement]
    dsimp only
    rw [hstarts, hamp]
    simp (disch := decide) only [hend, hne, hstop isAscii_isAlphanum, hstop isAscii_isInlineBlank,
      Bool.false_and, Bool.and_false, Bool.or_false, Bool.false_eq_true, if_false]
  have hends : endsLine text (State.of text cursor levels tokens).index = false := by
    rw [hindex, endsLine_indexOf h.suffix, hrest, hend]
  rw [lexElement_def, elementRound, hread, hends, if_neg Bool.false_ne_true, hbyte, lift_bind]
  simp (disch := decide) only [firstByte_beq, isAscii_isAlphanum.firstByte,
    isAscii_isInlineBlank.firstByte, hne, hstop isAscii_isAlphanum, hstop isAscii_isInlineBlank,
    Bool.false_and, Bool.and_false, Bool.or_false, Bool.false_eq_true, if_false, unexpected_of h]
  rfl

/-- An element is scanned up to the end of its line. -/
theorem lexElement_of (levels : List Nat) (tokens : List Token) {fuel : Nat} (started : Bool)
    (h : Stands text cursor) (hfuel : cursor.rest.length < fuel) :
    lexElement text started (State.of text cursor levels tokens) =
      behindLine text levels tokens (readElement fuel started cursor) := by
  induction fuel generalizing started cursor tokens with
  | zero => exact absurd hfuel (Nat.not_lt_zero _)
  | succ fuel ih =>
    have hindex : (State.of text cursor levels tokens).index = indexOf text cursor.rest := rfl
    by_cases hend : isLineEnd cursor.rest = true
    · rw [lexElement_def, elementRound, hindex, endsLine_indexOf h.suffix, if_pos hend, readElement,
        if_pos hend, behindLine, Except.map, List.append_nil]
      rfl
    obtain ⟨place, rest⟩ := cursor
    rcases rest with _ | ⟨c, cs⟩
    · exact absurd rfl hend
    by_cases hc : ¬c.toNat < 128
    · exact lexElement_of_le h rfl hc started fuel
    have hc := not_not.1 hc
    have hbyte : byte? text (State.of text ⟨place, c :: cs⟩ levels tokens).index = some c := by
      rw [byte?_of h, map_firstByte_cons hc]
    have hnext := h.next rfl
    have hsuffix : cs <:+ text := hnext.suffix
    have hshort : cs.length < fuel := Nat.lt_of_succ_lt_succ hfuel
    have hsucc := index_succ_of levels tokens h rfl hc
    rw [lexElement_def, elementRound, hindex, endsLine_indexOf h.suffix, if_neg hend, readElement,
      if_neg hend, ← hindex, hbyte, lift_bind]
    dsimp only
    rw [hsucc, any_byte?_indexOf hsuffix isAscii_isLiteralChar,
      any_byte?_indexOf hsuffix isAscii_isInlineBlank, endsLine_indexOf hsuffix,
      byte?_indexOf_beq hsuffix (by decide)]
    -- A tag name.
    by_cases htag : (!started && (c.isAlphanum || c == '_')) = true
    · have hhead := (Bool.and_eq_true_iff.1 htag).2
      obtain ⟨more, hname⟩ : ∃ more, (scanTag (c :: cs)).1 = c :: more :=
        exists_cons_of_scanTag rfl hhead
      have hsplit := scanTag_append (c :: cs)
      have hless : (scanTag (c :: cs)).2.length < fuel := by
        have hlength := congrArg List.length hsplit
        rw [hname, List.length_append, List.length_cons, List.length_cons] at hlength
        omega
      rw [if_pos htag, if_pos htag, lexTag_of h rfl hhead, lift_bind, behindLine_prepending]
      exact ih _ true (h.advance hsplit.symm) hless
    rw [if_neg htag, if_neg htag]
    -- A class or an id.
    by_cases hliteral : ((c == '.' || c == '#') && cs.head?.any isLiteralChar) = true
    · have hline : c ≠ '\n' := by
        rintro rfl
        exact absurd hliteral Bool.false_ne_true
      have hsplit : c :: cs = c :: cs.takeWhile isLiteralChar ++ cs.dropWhile isLiteralChar := by
        rw [List.cons_append, List.takeWhile_append_dropWhile]
      have hless := Nat.lt_of_le_of_lt (List.dropWhile_suffix isLiteralChar).length_le hshort
      rw [if_pos hliteral, if_pos hliteral, lexLiteral_of h rfl hc hline, lift_bind,
        behindLine_prepending]
      exact ih _ true (h.advance hsplit) hless
    rw [if_neg hliteral, if_neg hliteral]
    -- A dot at the end of the line.
    by_cases hdot : (c == '.') = true
    · obtain rfl := beq_iff_eq.1 hdot
      rw [if_pos hdot, if_pos hdot, lexDot_of h rfl]
      cases isLineEnd (cs.dropWhile isInlineBlank) <;> rfl
    rw [if_neg hdot, if_neg hdot]
    -- A list of attributes.
    by_cases hlist : (started && c == '(') = true
    · obtain rfl := beq_iff_eq.1 (Bool.and_eq_true_iff.1 hlist).2
      rw [if_pos hlist, if_pos hlist, lexList_of h rfl]
      dsimp only
      cases hread : readAttributes place (cs.length + 1)
          ((⟨place, '(' :: cs⟩ : Cursor).advance ['('] cs) with
      | error fault => rfl
      | ok found =>
        have hreads := reads_readAttributes hread
        have hless := Nat.lt_of_le_of_lt hreads.length_le hshort
        refine (ih _ true (hnext.reads hreads) hless).trans ?_
        exact (behindLine_prepending _ (readElement fuel true found.2)).symm
    rw [if_neg hlist, if_neg hlist]
    -- A spread of attributes.
    by_cases hspread : (started && "&attributes(".toList.isPrefixOf (c :: cs)) = true
    · obtain ⟨hstarted, hstarts⟩ := Bool.and_eq_true_iff.1 hspread
      obtain ⟨behind, hbehind⟩ := List.isPrefixOf_iff_prefix.1 hstarts
      obtain ⟨rfl, rfl⟩ : '&' = c ∧ "attributes(".toList ++ behind = cs := List.cons.inj hbehind
      have hsign : (started && '&' == '&') = true := Bool.and_eq_true_iff.2 ⟨hstarted, rfl⟩
      have hdrop : ("attributes(".toList ++ behind).drop ("&attributes(".toList.length - 1) =
          behind := rfl
      have hwhole : '&' :: ("attributes(".toList ++ behind) = "&attributes(".toList ++ behind := rfl
      rw [if_pos hsign, if_pos hspread, startsWith?_of h, lift_bind, if_pos hstarts,
        lexSpread_of h hwhole, hdrop]
      dsimp only
      cases hscan : scanGroup (place.after "&attributes".toList) 1 .outside
          (place.after "&attributes(".toList) behind with
      | error fault => rfl
      | ok found =>
        have hsplit := (eq_append_of_scanGroup hscan).1
        have hgroup : '&' :: ("attributes(".toList ++ behind) =
            "&attributes(".toList ++ found.1 ++ found.2 := by
          rw [List.append_assoc, ← hsplit, ← hwhole]
        have hstop := h.advance hgroup
        have hless : found.2.length < fuel := by
          rw [hsplit, List.length_append, List.length_append] at hshort
          omega
        refine (ih _ true hstop hless).trans ?_
        exact (behindLine_prepending [_] (readElement fuel true
          ((⟨place, '&' :: ("attributes(".toList ++ behind)⟩ : Cursor).advance
            ("&attributes(".toList ++ found.1) found.2))).symm
    rw [if_neg hspread]
    by_cases hsign : (started && c == '&') = true
    · obtain ⟨hstarted, hc⟩ := Bool.and_eq_true_iff.1 hsign
      obtain rfl := beq_iff_eq.1 hc
      have hstarts : ¬"&attributes(".toList.isPrefixOf ('&' :: cs) = true := fun hstarts =>
        hspread (Bool.and_eq_true_iff.2 ⟨hstarted, hstarts⟩)
      rw [if_pos hsign, startsWith?_of h, lift_bind, if_neg hstarts, unexpected_of h]
      cases started <;> rfl
    rw [if_neg hsign]
    -- The colon in front of a nested element.
    by_cases hcolon : (started && c == ':' && cs.head?.any isInlineBlank) = true
    · obtain rfl := beq_iff_eq.1 (Bool.and_eq_true_iff.1 (Bool.and_eq_true_iff.1 hcolon).1).2
      have hsplit : ':' :: cs =
          ':' :: cs.takeWhile isInlineBlank ++ cs.dropWhile isInlineBlank := by
        rw [List.cons_append, List.takeWhile_append_dropWhile]
      have hless := Nat.lt_of_le_of_lt (List.dropWhile_suffix isInlineBlank).length_le hshort
      rw [if_pos hcolon, if_pos hcolon, lexColon_of h rfl, lift_bind, behindLine_prepending]
      exact ih _ false (h.advance hsplit) hless
    rw [if_neg hcolon, if_neg hcolon]
    -- The slash that ends an element.
    by_cases hslash : (started && c == '/' && isLineEnd cs) = true
    · obtain rfl := beq_iff_eq.1 (Bool.and_eq_true_iff.1 (Bool.and_eq_true_iff.1 hslash).1).2
      rw [if_pos hslash, if_pos hslash, skip_one_of h rfl (by decide) (by decide), mark_of h hnext,
        lift_bind, behindLine_prepending]
      exact ih _ true hnext hshort
    rw [if_neg hslash, if_neg hslash]
    -- Code behind `=` or `!=`.
    by_cases hequals : (started && c == '=') = true
    · obtain rfl := beq_iff_eq.1 (Bool.and_eq_true_iff.1 hequals).2
      have hcode := lexCode_of levels tokens .escaped h rfl
      rw [List.length_singleton] at hcode
      rw [if_pos hequals, if_pos hequals, hcode]
      rfl
    rw [if_neg hequals, if_neg hequals]
    by_cases hraw : (started && c == '!' && cs.head? == some '=') = true
    · obtain ⟨hmark, hhead⟩ := Bool.and_eq_true_iff.1 hraw
      obtain rfl := beq_iff_eq.1 (Bool.and_eq_true_iff.1 hmark).2
      obtain ⟨behind, rfl⟩ := List.head?_eq_some_iff.1 (beq_iff_eq.1 hhead)
      have hcode : lexCode text 2 true _ = _ :=
        lexCode_of levels tokens .raw h rfl
      rw [if_pos hraw, if_pos hraw, hcode]
      rfl
    rw [if_neg hraw, if_neg hraw]
    -- The text behind a head, or a line of text.
    by_cases hblank : (started && isInlineBlank c) = true
    · rw [if_pos hblank, if_pos hblank, lexInline_of h rfl (Bool.and_eq_true_iff.1 hblank).2,
        lift_bind, inlineText]
      cases (trim (splitLine cs).1).isEmpty <;> rfl
    rw [if_neg hblank, if_neg hblank]
    by_cases hhash : (!started && c == '#') = true
    · rw [if_pos hhash, if_pos hhash, lexRest_of h]
      rfl
    · rw [if_neg hhash, if_neg hhash, unexpected_of h]
      rfl

end Scanner

end PugLint
