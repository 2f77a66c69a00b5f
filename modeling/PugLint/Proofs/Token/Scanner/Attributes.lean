import PugLint.Proofs.Token.Attribute
import PugLint.Proofs.Token.Scanner.Strings

/-!
# Scans of attributes

The name of an attribute stands between its quotes or goes up to its end, and its value follows
behind a sign. A scan takes the same attributes as the reader, and cuts out the same texts.

* `Scanner.lexName_of`, `Scanner.lexValue_of`: names and values;
* `Scanner.lexAttribute_of`, `Scanner.lexAttributes_of`: attributes and lists of them.
-/

namespace PugLint

namespace Scanner

open Text Lexer

variable {text rest taken : List Char} {cursor stop : Cursor} {levels : List Nat}
  {tokens : List Token}

/-! ### Names -/

/-- A name ends at its first byte or goes on behind it. -/
theorem skipName_eq {depth : Nat} {s : State} {b : Char} (hbyte : byte? text s.index = some b) :
    skipName text depth s =
      if endsName depth b (byte? text (s.index + 1)) then some s
      else skipName text (bracketDepth depth b) (s.skip 1) := by
  rw [skipName_def, hbyte, endsName, bracketDepth]
  dsimp only
  by_cases hopening : b = '['
  · subst hopening
    simp
  by_cases hclosing : b = ']'
  · subst hclosing
    simp
  have hopening' : (b == '[') = false := beq_eq_false_iff_ne.2 hopening
  have hclosing' : (b == ']') = false := beq_eq_false_iff_ne.2 hclosing
  rw [hopening', hclosing']
  simp only [Bool.false_eq_true, if_false]
  rcases depth with _ | depth
  · simp only [Nat.lt_irrefl, if_false, beq_self_eq_true, Bool.true_and]
    cases b == '\n' || b == '\r' <;>
      cases b == ' ' || b == '\t' || b == '=' || b == ',' || b == ')' <;> simp
  · simp

/-- No name ends in the bytes of a longer character. -/
theorem skipName_skip (depth : Nat) {s : State} {b : Char} (hbyte : byte? text s.index = some b)
    (hb : 128 ≤ b.toNat) : skipName text depth s = skipName text depth (s.skip 1) := by
  have hne {d : Char} (hd : d.toNat < 128) : (b == d) = false :=
    Bool.eq_false_iff.2 ((isAscii_beq hd).not_of_le hb)
  rw [skipName_eq hbyte]
  simp [endsName, bracketDepth, hne]

/-- The bytes of a character end a name where the character does. -/
theorem endsName_firstByte (depth : Nat) {place : Position} {c : Char} {cs : List Char}
    (h : Stands text ⟨place, c :: cs⟩) :
    endsName depth (firstByte c)
        (byte? text ((State.of text ⟨place, c :: cs⟩ levels tokens).index + 1)) =
      endsName depth c cs.head? := by
  have hsign : (c == '!' &&
      byte? text ((State.of text ⟨place, c :: cs⟩ levels tokens).index + 1) == some '=') =
      (c == '!' && cs.head? == some '=') := by
    by_cases hc : c = '!'
    · subst hc
      rw [byte?_of_succ h rfl (by decide), map_firstByte_beq (by decide)]
    · rw [beq_eq_false_iff_ne.2 hc, Bool.false_and, Bool.false_and]
  rw [endsName, endsName]
  simp (disch := decide) only [firstByte_beq]
  rw [hsign]

theorem bracketDepth_firstByte (depth : Nat) (c : Char) :
    bracketDepth depth (firstByte c) = bracketDepth depth c := by
  rw [bracketDepth, bracketDepth, firstByte_beq (by decide), firstByte_beq (by decide)]

/-- A name is taken up to its end, whatever the bytes in it. -/
theorem skipName_of (levels : List Nat) (tokens : List Token) (depth : Nat)
    (h : Stands text cursor) :
    skipName text depth (State.of text cursor levels tokens) =
      some (State.of text
        (cursor.advance (scanName depth cursor.rest).1 (scanName depth cursor.rest).2) levels
        tokens) := by
  obtain ⟨place, cs⟩ := cursor
  induction cs generalizing place depth with
  | nil =>
    rw [skipName_def, byte?_of h]
    rfl
  | cons c cs ih =>
    have hbyte : byte? text (State.of text ⟨place, c :: cs⟩ levels tokens).index =
        some (firstByte c) := byte?_of h
    have hnext := h.next rfl
    have hstep (depth : Nat) (s : State) (b : Char) (hbyte : byte? text s.index = some b)
      (hb : 128 ≤ b.toNat) := skipName_skip depth hbyte hb
    rw [skipName_eq hbyte, endsName_firstByte depth h, bracketDepth_firstByte, scanName_cons]
    by_cases hends : endsName depth c cs.head? = true
    · rw [if_pos hends, if_pos hends]
      rfl
    · have hne : c ≠ '\n' := by
        rintro rfl
        exact hends rfl
      rw [if_neg hends, if_neg hends, skip_first (hstep _) h rfl hne]
      exact ih _ _ hnext

/-- The name of an attribute is cut out of its quotes, or as it is written. -/
theorem lexName_of (h : Stands text cursor) :
    lexName text (State.of text cursor levels tokens) =
      done ((readName cursor).map fun found =>
        (found.1, State.of text (cursor.advance found.2.1 found.2.2) levels tokens)) := by
  have hquotes : IsAscii fun c => c == '"' || c == '\'' :=
    (isAscii_beq (by decide)).or (isAscii_beq (by decide))
  rw [lexName, any_byte?_of h hquotes]
  by_cases hquoted : cursor.rest.head?.any (fun c => c == '"' || c == '\'') = true
  · obtain ⟨place, cs⟩ := cursor
    rcases cs with _ | ⟨c, cs⟩
    · cases hquoted
    have hc : (c == '"' || c == '\'') = true := hquoted
    have hquote : isQuote c = true := Bool.or_eq_true_iff.2 (.inl hc)
    have hascii := isAscii_isQuote c hquote
    have hbyte : byte? text (State.of text ⟨place, c :: cs⟩ levels tokens).index =
        some (firstByte c) := byte?_of h
    rw [if_pos hquoted, hbyte, lift_bind, quoted_bind hquote h, readName]
    dsimp only
    rw [if_pos hc]
    cases hstring : scanString c cs with
    | none => rfl
    | some found =>
      obtain ⟨taken, rest⟩ := found
      obtain ⟨rfl, body, rfl⟩ := eq_append_of_scanString hstring
      obtain ⟨stop, hstop, hname⟩ := slice?_between hascii hascii h.suffix
      dsimp only [State.of]
      rw [hstop, lift_bind, hname, lift_bind, List.dropLast_concat]
      rfl
  · have hread : readName cursor = if (scanName 0 cursor.rest).1.isEmpty then
          .error (Lexer.unexpected cursor)
        else .ok ((scanName 0 cursor.rest).1, (scanName 0 cursor.rest).1,
          (scanName 0 cursor.rest).2) := by
      obtain ⟨place, cs⟩ := cursor
      rcases cs with _ | ⟨c, cs⟩
      · rfl
      · exact if_neg hquoted
    obtain ⟨⟨name, rest⟩, hname⟩ : ∃ found, scanName 0 cursor.rest = found := ⟨_, rfl⟩
    have happend := scanName_append 0 cursor.rest
    have hstop := skipName_of levels tokens 0 h
    rw [hname] at happend hstop hread
    dsimp only at happend hstop hread
    have hempty := index_beq_of levels tokens h happend.symm
    have hslice := slice?_of levels tokens h happend.symm
    rw [if_neg hquoted, hstop, lift_bind, hread]
    by_cases hnil : name.isEmpty = true
    · rw [if_pos (hempty.trans hnil), if_pos hnil]
      obtain rfl := List.isEmpty_iff.1 hnil
      have hnone : cursor.rest = rest := happend.symm
      rw [advance_nil hnone, unexpected_of h]
      rfl
    · rw [if_neg (hempty ▸ hnil), if_neg hnil, hslice]
      rfl

/-! ### Values and attributes -/

/-- The cursor behind the blanks in front of a value. -/
def valueStart (cursor : Cursor) : Cursor :=
  cursor.advance (cursor.rest.takeWhile isInlineBlank) (cursor.rest.dropWhile isInlineBlank)

theorem Stands.valueStart (h : Stands text cursor) : Stands text (valueStart cursor) :=
  h.advance List.takeWhile_append_dropWhile.symm

/-- The value of an attribute is cut out as it is written, and is not empty. -/
theorem lexValue_of (h : Stands text cursor) :
    lexValue text (State.of text cursor levels tokens) =
      done (do
        let start := valueStart cursor
        let (value, rest) ← scanValue 0 .outside start.place start.rest
        if value.isEmpty then .error (Lexer.unexpected start)
        else .ok (value, State.of text (start.advance value rest) levels tokens)) := by
  have hstart := h.valueStart
  have hskip := skip_measureIndent levels tokens h
  rw [← valueStart] at hskip
  rw [lexValue, hskip]
  dsimp only
  rw [skipValue_of 0 hstart]
  generalize valueStart cursor = start at hstart
  cases hscan : scanValue 0 .outside start.place start.rest with
  | error fault => rfl
  | ok found =>
    obtain ⟨value, rest⟩ := found
    have happend := eq_append_of_scanValue hscan
    have hempty := index_beq_of levels tokens hstart happend
    have hslice := slice?_of levels tokens hstart happend
    have hbind : done (.ok (State.of text (start.advance value rest) levels tokens)) =
        after text start levels tokens (.ok (value, rest)) := rfl
    rw [← hbind, done_bind, ok_bind]
    dsimp only
    by_cases hnil : value.isEmpty = true
    · rw [if_pos (hempty.trans hnil), if_pos hnil]
      obtain rfl := List.isEmpty_iff.1 hnil
      have hnone : start.rest = rest := happend
      rw [advance_nil hnone, unexpected_of hstart]
      rfl
    · rw [if_neg (hempty ▸ hnil), if_neg hnil, hslice]
      rfl

/-- A sign starts behind the blanks behind a name. -/
theorem of_sign {marker : List Char} {n : Nat} (h : Stands text cursor)
    (hsign : cursor.rest.dropWhile isInlineBlank = marker ++ rest) (hmarker : '\n' ∉ marker)
    (hn : byteLength marker = n) :
    (State.of text cursor levels tokens).goTo ((State.of text cursor levels tokens).index +
        measureIndent text (State.of text cursor levels tokens).index + n) =
      State.of text (cursor.advance (cursor.rest.takeWhile isInlineBlank ++ marker) rest) levels
        tokens := by
  have hstart := h.valueStart
  have hskip := skip_measureIndent levels tokens h
  have hrest : (valueStart cursor).rest = marker ++ rest := hsign
  have hbehind := skip_of levels tokens hstart hrest hmarker hn
  rw [← advance_advance cursor _ _ (cursor.rest.dropWhile isInlineBlank), ← valueStart, ← hbehind,
    valueStart, ← hskip]
  rfl

/-- A value is scanned behind its sign. -/
theorem lexAttribute_valued (levels : List Nat) (tokens : List Token)
    {written sign behind : List Char} (h : Stands text cursor)
    (hrest : cursor.rest = written ++ (sign ++ behind)) (name : List Char) (escaped : Bool) :
    (do
      let (value, s) ← lexValue text (State.of text
        ((cursor.advance written (sign ++ behind)).advance sign behind) levels tokens)
      s.mark (State.of text cursor levels tokens)
        (.attribute (String.ofList name) (some (String.ofList value)) escaped) : Scan State) =
      done (Except.map (fun found => State.of text found.2 levels (tokens ++ [found.1])) (do
        let before := written ++ sign ++ behind.takeWhile isInlineBlank
        let start := cursor.advance before (behind.dropWhile isInlineBlank)
        let (value, rest) ← scanValue 0 .outside start.place start.rest
        if value.isEmpty then .error (Lexer.unexpected start)
        else
          return (
            cursor.token (.attribute (String.ofList name) (some (String.ofList value)) escaped)
              (before ++ value),
            cursor.advance (before ++ value) rest))) := by
  have hsign := (h.advance hrest).advance (rfl : _ = sign ++ _)
  have hstart : valueStart ((cursor.advance written (sign ++ behind)).advance sign behind) =
      cursor.advance (written ++ sign ++ behind.takeWhile isInlineBlank)
        (behind.dropWhile isInlineBlank) := by
    rw [valueStart, advance_advance, advance_advance, ← List.append_assoc]
    rfl
  have hstands := hsign.valueStart
  rw [lexValue_of hsign]
  rw [hstart] at hstands ⊢
  dsimp only
  generalize written ++ sign ++ behind.takeWhile isInlineBlank = before at hstands
  generalize behind.dropWhile isInlineBlank = left at hstands
  cases hscan : scanValue 0 .outside (cursor.advance before left).place
      (cursor.advance before left).rest with
  | error fault => rfl
  | ok found =>
    obtain ⟨value, rest⟩ := found
    have hstop := hstands.advance (eq_append_of_scanValue hscan)
    rw [ok_bind, ok_bind]
    dsimp only
    by_cases hnil : value.isEmpty = true
    · rw [if_pos hnil, if_pos hnil]
      rfl
    · rw [if_neg hnil, if_neg hnil, done_bind]
      dsimp only
      rw [mark_of h hstop, advance_advance]
      rfl

theorem scanAssignment_eq_none {cs : List Char}
    (h : ¬∃ escaped behind, cs.dropWhile isInlineBlank = assignment escaped ++ behind) :
    scanAssignment cs = none := by
  refine Option.eq_none_iff_forall_ne_some.2 fun found hfound => h ?_
  obtain ⟨sign, escaped, behind⟩ := found
  obtain ⟨rfl, blanks, hblanks, rfl⟩ := isSign_of_scanAssignment hfound
  have hhead : ∀ c ∈ (assignment escaped ++ behind).head?, isInlineBlank c = false := by
    cases escaped <;> (rintro c ⟨⟩; rfl)
  rw [List.append_assoc]
  exact ⟨escaped, behind, (takeWhile_append_stop hblanks hhead).2⟩

/-- The byte behind the blanks is at the start of a value. -/
theorem index_add_measureIndent (levels : List Nat) (tokens : List Token)
    (h : Stands text cursor) :
    (State.of text cursor levels tokens).index +
        measureIndent text (State.of text cursor levels tokens).index =
      (State.of text (valueStart cursor) levels tokens).index :=
  congrArg State.index (skip_measureIndent levels tokens h)

theorem escapedSign_iff (h : Stands text cursor) :
    (byte? text ((State.of text cursor levels tokens).index +
        measureIndent text (State.of text cursor levels tokens).index) == some '=') = true ↔
      ∃ behind, cursor.rest.dropWhile isInlineBlank = assignment true ++ behind := by
  rw [index_add_measureIndent _ _ h, byte?_of h.valueStart, map_firstByte_beq (by decide),
    beq_iff_eq]
  exact List.head?_eq_some_iff

theorem rawSign_iff (h : Stands text cursor) :
    (byte? text ((State.of text cursor levels tokens).index +
          measureIndent text (State.of text cursor levels tokens).index) == some '!' &&
        byte? text ((State.of text cursor levels tokens).index +
          measureIndent text (State.of text cursor levels tokens).index + 1) == some '=') = true ↔
      ∃ behind, cursor.rest.dropWhile isInlineBlank = assignment false ++ behind := by
  have hstart := h.valueStart
  rw [index_add_measureIndent _ _ h, byte?_of hstart, map_firstByte_beq (by decide)]
  constructor
  · intro hboth
    obtain ⟨hfirst, hsecond⟩ := Bool.and_eq_true_iff.1 hboth
    obtain ⟨back, hback⟩ := List.head?_eq_some_iff.1 (beq_iff_eq.1 hfirst)
    rw [byte?_of_succ hstart hback (by decide), map_firstByte_beq (by decide), beq_iff_eq]
      at hsecond
    obtain ⟨behind, rfl⟩ := List.head?_eq_some_iff.1 hsecond
    exact ⟨behind, hback⟩
  · rintro ⟨behind, hback⟩
    have hrest : (valueStart cursor).rest = '!' :: '=' :: behind := hback
    rw [byte?_of_succ hstart hrest (by decide), hrest, map_firstByte_cons (by decide)]
    rfl

/-- What a scanned attribute leads to. -/
theorem lexAttribute_of (h : Stands text cursor) :
    lexAttribute text (State.of text cursor levels tokens) =
      done ((readAttribute cursor).map fun found =>
        State.of text found.2 levels (tokens ++ [found.1])) := by
  rw [lexAttribute, lexName_of h, readAttribute]
  cases hread : readName cursor with
  | error fault => rfl
  | ok found =>
    obtain ⟨name, written, rest⟩ := found
    have hrest := (readName_eq hread).1
    have hbehind := h.advance hrest
    have hname : done ((Except.ok (name, written, rest) : Except LexError _).map fun found =>
        (found.1, State.of text (cursor.advance found.2.1 found.2.2) levels tokens)) =
        done (.ok (name, State.of text (cursor.advance written rest) levels tokens)) := rfl
    -- A sign behind the name is read with the blanks in front of it.
    have hsigned {escaped : Bool} {behind : List Char}
        (hback : rest.dropWhile isInlineBlank = assignment escaped ++ behind) :
        scanAssignment rest =
            some (rest.takeWhile isInlineBlank ++ assignment escaped, escaped, behind) ∧
          rest = rest.takeWhile isInlineBlank ++ assignment escaped ++ behind := by
      have hsign : IsSign (rest.takeWhile isInlineBlank ++ assignment escaped) escaped :=
        ⟨rest.takeWhile isInlineBlank, fun c hc => List.mem_takeWhile_imp hc, rfl⟩
      have hassign := hsign.scanAssignment behind
      have hsplit : rest = rest.takeWhile isInlineBlank ++ assignment escaped ++ behind := by
        rw [List.append_assoc, ← hback, List.takeWhile_append_dropWhile]
      rw [← hsplit] at hassign
      exact ⟨hassign, hsplit⟩
    have hvalued {escaped : Bool} {behind : List Char}
        (hsplit : rest = rest.takeWhile isInlineBlank ++ assignment escaped ++ behind) :=
      lexAttribute_valued levels tokens h
        (hrest.trans (congrArg (written ++ ·) hsplit)) name escaped
    rw [hname, done_bind, ok_bind]
    dsimp only
    by_cases hescaped : ∃ behind, rest.dropWhile isInlineBlank = assignment true ++ behind
    · rw [if_pos ((escapedSign_iff hbehind).2 hescaped)]
      obtain ⟨behind, hback⟩ := hescaped
      obtain ⟨hassign, hsplit⟩ := hsigned hback
      have hvalued := hvalued hsplit
      rw [← hsplit] at hvalued
      rw [hassign, of_sign (n := 1) hbehind hback (by decide) rfl]
      exact hvalued
    rw [if_neg (mt (escapedSign_iff hbehind).1 hescaped)]
    by_cases hraw : ∃ behind, rest.dropWhile isInlineBlank = assignment false ++ behind
    · rw [if_pos ((rawSign_iff hbehind).2 hraw)]
      obtain ⟨behind, hback⟩ := hraw
      obtain ⟨hassign, hsplit⟩ := hsigned hback
      have hvalued := hvalued hsplit
      rw [← hsplit] at hvalued
      rw [hassign, of_sign (n := 2) hbehind hback (by decide) rfl]
      exact hvalued
    rw [if_neg (mt (rawSign_iff hbehind).1 hraw)]
    have hnone : scanAssignment rest = none := by
      refine scanAssignment_eq_none ?_
      rintro ⟨escaped, hsign⟩
      cases escaped with
      | true => exact hescaped hsign
      | false => exact hraw hsign
    rw [hnone, mark_of h hbehind]
    rfl

/-! ### Lists -/

/-- What stands between attributes is passed over. -/
theorem skipSeparators_of (h : Stands text cursor) :
    skipSeparators text (State.of text cursor levels tokens) =
      some (State.of text (cursor.advance (cursor.rest.takeWhile isSeparator)
        (cursor.rest.dropWhile isSeparator)) levels tokens) := by
  obtain ⟨place, cs⟩ := cursor
  induction cs generalizing place with
  | nil =>
    rw [skipSeparators_def, any_byte?_of h isAscii_isSeparator]
    rfl
  | cons c cs ih =>
    rw [skipSeparators_def, any_byte?_of h isAscii_isSeparator, List.head?_cons, Option.any_some]
    dsimp only
    by_cases hc : isSeparator c = true
    · rw [if_pos hc, bump_of h rfl (isAscii_isSeparator c hc), some_bind,
        List.takeWhile_cons_of_pos hc, List.dropWhile_cons_of_pos hc]
      exact ih _ (h.next rfl)
    · rw [if_neg hc, List.takeWhile_cons_of_neg hc, List.dropWhile_cons_of_neg hc]
      rfl

/-- An attribute takes at least one character. -/
theorem length_of_readAttribute {token : Token} (h : readAttribute cursor = .ok (token, stop)) :
    stop.rest.length < cursor.rest.length := by
  obtain ⟨kind, written, hrest, -, -, hread⟩ := exists_readsAttribute h
  have hpos := List.length_pos_iff.2 hread.attributeAt.ne_nil
  rw [hrest, List.length_append]
  omega

/-- A list of attributes is scanned up to the parenthesis that closes it. -/
theorem lexAttributes_of (start : Position) {fuel : Nat} (h : Stands text cursor)
    (hfuel : cursor.rest.length < fuel) :
    lexAttributes text start (State.of text cursor levels tokens) =
      done ((readAttributes start fuel cursor).map fun found =>
        State.of text found.2 levels (tokens ++ found.1)) := by
  induction fuel generalizing cursor tokens with
  | zero => exact absurd hfuel (Nat.not_lt_zero _)
  | succ fuel ih =>
    have hsplit := (List.takeWhile_append_dropWhile (p := isSeparator) (l := cursor.rest)).symm
    have hnext := h.advance hsplit
    have hshort : (cursor.rest.dropWhile isSeparator).length < fuel + 1 :=
      Nat.lt_of_le_of_lt (List.dropWhile_suffix isSeparator).length_le hfuel
    rw [lexAttributes_def, skipSeparators_of h, lift_bind, byte?_of hnext, readAttributes]
    dsimp only [Cursor.advance] at hnext ⊢
    generalize cursor.place.after (cursor.rest.takeWhile isSeparator) = place at hnext ⊢
    rcases hrest : cursor.rest.dropWhile isSeparator with _ | ⟨c, cs⟩
    · rfl
    rw [hrest] at hnext hshort
    by_cases hc : c = ')'
    · subst hc
      rw [map_firstByte_cons (by decide)]
      dsimp only
      rw [if_pos (beq_self_eq_true ')'), skip_one_of hnext rfl (by decide) (by decide),
        mark_of hnext (hnext.next rfl)]
      rfl
    · have hbyte : ¬(firstByte c == ')') = true := by
        rwa [firstByte_beq (by decide), beq_iff_eq]
      rw [List.head?_cons, Option.map_some]
      dsimp only
      rw [if_neg hbyte, lexAttribute_of hnext]
      split
      · rename_i heq
        cases heq
      · rename_i heq
        cases heq
        exact absurd rfl hc
      · cases hread : readAttribute ⟨place, c :: cs⟩ with
        | error fault => rfl
        | ok found =>
          obtain ⟨token, stop⟩ := found
          have hless := length_of_readAttribute hread
          have hstop := hnext.reads (reads_readAttribute hread)
          refine (ih hstop (Nat.lt_of_lt_of_le hless (Nat.le_of_lt_succ hshort))).trans ?_
          rw [ok_bind]
          dsimp only
          cases readAttributes start fuel stop with
          | error fault => rfl
          | ok found =>
            rw [ok_bind]
            exact congrArg (fun tokens => done (.ok (State.of text found.2 levels tokens)))
              (List.append_assoc _ _ _)

end Scanner

end PugLint
