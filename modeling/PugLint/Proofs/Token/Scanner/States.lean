import PugLint.Proofs.Token.Reading
import PugLint.Proofs.Token.Scanner.Bytes
import PugLint.Proofs.Token.Scanner.Rounds

/-!
# States of a scan

A scan has come to a state where the reader of a text has come to a cursor: at the byte in front of
the text that is left, on the line and in the column of the cursor. What each of them takes leads
to such a state and such a cursor again. The bytes of a longer character are taken one by one, and
no scan ends between two of them.

* `Scanner.State.of`: the state of a scan at a cursor;
* `Scanner.across`: the bytes of a character behind those of ASCII;
* `Scanner.lineBreak_of`, `Scanner.lexRest_of`: steps over a line.
-/

namespace PugLint

namespace Scanner

open Text Lexer

/-- The state of a scan at a cursor. -/
def State.of (text : List Char) (cursor : Cursor) (levels : List Nat) (tokens : List Token) :
    State where
  index := indexOf text cursor.rest
  line := cursor.place.line
  lineStart := indexOf text cursor.rest + 1 - cursor.place.column
  levels := levels
  tokens := tokens

/-- A cursor stands in a text, at the place that the text in front of it leads to. -/
def Stands (text : List Char) (cursor : Cursor) : Prop :=
  ∃ passed, text = passed ++ cursor.rest ∧ cursor.place = Position.first.after passed

section States

variable {text taken rest : List Char} {cursor stop : Cursor} {levels : List Nat}
  {tokens : List Token}

theorem Stands.suffix (h : Stands text cursor) : cursor.rest <:+ text := by
  obtain ⟨passed, htext, -⟩ := h
  exact ⟨passed, htext.symm⟩

theorem Stands.advance (h : Stands text cursor) (hrest : cursor.rest = taken ++ rest) :
    Stands text (cursor.advance taken rest) := by
  obtain ⟨passed, htext, hplace⟩ := h
  refine ⟨passed ++ taken, ?_, ?_⟩
  · rw [htext, hrest, ← List.append_assoc]
    rfl
  · rw [Position.after_append, ← hplace]
    rfl

theorem Stands.next {c : Char} (h : Stands text cursor) (hrest : cursor.rest = c :: rest) :
    Stands text (cursor.advance [c] rest) :=
  h.advance hrest

/-- What is read leads to a cursor in the text. -/
theorem Stands.reads (h : Stands text cursor) (hreads : Reads cursor tokens stop) :
    Stands text stop := by
  obtain ⟨taken, hrest, hplace, -⟩ := hreads
  have hstop : cursor.advance taken stop.rest = stop := by
    rw [Cursor.advance, ← hplace]
  exact hstop ▸ h.advance hrest

theorem column_after_pos (taken : List Char) {p : Position} (h : 0 < p.column) :
    0 < (p.after taken).column := by
  induction taken generalizing p with
  | nil => exact h
  | cons c taken ih =>
    refine ih ?_
    rw [Position.next]
    split
    · exact Nat.one_pos
    · exact Nat.add_pos_left h _

theorem Stands.column (h : Stands text cursor) :
    0 < cursor.place.column ∧ cursor.place.column ≤ indexOf text cursor.rest + 1 := by
  obtain ⟨passed, htext, hplace⟩ := h
  have hcolumn := LineIndex.lastStart_add_column passed
  have hpos := column_after_pos passed (p := .first) Nat.one_pos
  rw [htext, indexOf_append, hplace]
  omega

theorem place?_of (h : Stands text cursor) :
    (State.of text cursor levels tokens).place? = some cursor.place := by
  obtain ⟨hpos, hle⟩ := h.column
  have hstart : indexOf text cursor.rest + 1 - cursor.place.column ≤ indexOf text cursor.rest := by
    omega
  have hcolumn : indexOf text cursor.rest -
      (indexOf text cursor.rest + 1 - cursor.place.column) + 1 = cursor.place.column := by
    omega
  rw [State.place?, State.of, minus?_of_le hstart, some_bind]
  dsimp only
  rw [hcolumn]
  rfl

theorem mark_of (h : Stands text cursor) (hstop : Stands text stop) (kind : TokenKind)
    (before : List Token) :
    (State.of text stop levels tokens).mark (State.of text cursor levels before) kind =
      some (State.of text stop levels (tokens ++ [⟨kind, cursor.place, stop.place⟩])) := by
  rw [State.mark, place?_of h, some_bind, place?_of hstop]
  rfl

/-- On one line, the place behind a text is its bytes further on. -/
theorem after_of_notMem (h : '\n' ∉ taken) (p : Position) :
    p.after taken = ⟨p.line, p.column + byteLength taken⟩ := by
  induction taken generalizing p with
  | nil => rfl
  | cons c taken ih =>
    have hc : ¬(c == '\n') = true := fun hc => h (beq_iff_eq.1 hc ▸ List.mem_cons_self)
    rw [Position.after_cons, ih (fun hmem => h (List.mem_cons_of_mem c hmem)), Position.next,
      if_neg hc, byteLength_cons, Nat.add_assoc]

/-- A state further on in the line. -/
theorem of_advance (h : Stands text cursor) (hrest : cursor.rest = taken ++ rest)
    (hline : '\n' ∉ taken) :
    State.of text (cursor.advance taken rest) levels tokens =
      (State.of text cursor levels tokens).goTo (indexOf text rest) := by
  have hsuffix := h.suffix
  rw [hrest] at hsuffix
  have hindex := indexOf_behind hsuffix
  rw [← hrest] at hindex
  have hstart : indexOf text rest + 1 - (cursor.place.column + byteLength taken) =
      indexOf text cursor.rest + 1 - cursor.place.column := by
    omega
  rw [State.of, Cursor.advance]
  dsimp only
  rw [after_of_notMem hline]
  dsimp only
  rw [hstart]
  rfl

theorem skip_of (levels : List Nat) (tokens : List Token) (h : Stands text cursor)
    (hrest : cursor.rest = taken ++ rest) (hline : '\n' ∉ taken) {n : Nat}
    (hn : byteLength taken = n) :
    (State.of text cursor levels tokens).skip n =
      State.of text (cursor.advance taken rest) levels tokens := by
  have hsuffix := h.suffix
  rw [hrest] at hsuffix
  have hindex := indexOf_behind hsuffix
  rw [← hrest, hn] at hindex
  rw [of_advance h hrest hline, hindex]
  rfl

/-- A character of ASCII is taken with its byte. -/
theorem skip_one_of {c : Char} (h : Stands text cursor) (hrest : cursor.rest = c :: rest)
    (hc : c.toNat < 128) (hne : c ≠ '\n') :
    (State.of text cursor levels tokens).skip 1 =
      State.of text (cursor.advance [c] rest) levels tokens := by
  refine skip_of _ _ h hrest (fun hmem => hne (List.mem_singleton.1 hmem).symm) ?_
  rw [byteLength_cons, byteLength_nil, utf8Size_of_lt hc]

theorem bump_of_ne {s : State} {b : Char} (hbyte : byte? text s.index = some b) (hb : b ≠ '\n') :
    bump text s = some (s.skip 1) := by
  rw [bump, hbyte, some_bind, if_neg (by simpa using hb)]
  rfl

theorem byte?_of (h : Stands text cursor) :
    byte? text (State.of text cursor levels tokens).index = cursor.rest.head?.map firstByte :=
  byte?_indexOf h.suffix

/-- Behind the byte of a character of ASCII stands the text behind it. -/
theorem index_succ_of (levels : List Nat) (tokens : List Token) {c : Char} (h : Stands text cursor)
    (hrest : cursor.rest = c :: rest) (hc : c.toNat < 128) :
    (State.of text cursor levels tokens).index + 1 = indexOf text rest := by
  have hsuffix := h.suffix
  rw [hrest] at hsuffix
  rw [← indexOf_cons hc hsuffix, ← hrest]
  rfl

theorem byte?_of_succ {c : Char} (h : Stands text cursor) (hrest : cursor.rest = c :: rest)
    (hc : c.toNat < 128) :
    byte? text ((State.of text cursor levels tokens).index + 1) = rest.head?.map firstByte := by
  have hnext := h.next hrest
  rw [index_succ_of _ _ h hrest hc]
  exact byte?_indexOf hnext.suffix

theorem bump_of {c : Char} (h : Stands text cursor) (hrest : cursor.rest = c :: rest)
    (hc : c.toNat < 128) :
    bump text (State.of text cursor levels tokens) =
      some (State.of text (cursor.advance [c] rest) levels tokens) := by
  have hbyte : byte? text (State.of text cursor levels tokens).index = some c := by
    rw [byte?_of h, hrest, List.head?_cons, Option.map_some, firstByte_of_lt hc]
  by_cases hne : c = '\n'
  · subst hne
    have hsuffix := h.suffix
    rw [hrest] at hsuffix
    have hindex := indexOf_cons hc hsuffix
    rw [← hrest] at hindex
    have hplace : cursor.place.after ['\n'] = ⟨cursor.place.line + 1, 1⟩ := rfl
    rw [bump, hbyte, some_bind, if_pos (beq_self_eq_true '\n'), State.of, State.of, Cursor.advance,
      hplace]
    dsimp only
    rw [hindex, Nat.add_sub_cancel]
    rfl
  · rw [bump_of_ne hbyte hne, skip_one_of h hrest hc hne]

/-- The bytes of a longer character are passed over by what passes over each of them. -/
theorem across {β : Type} {f : State → β} {c : Char}
    (hstep : ∀ s b, byte? text s.index = some b → 128 ≤ b.toNat → f s = f (s.skip 1))
    (h : Stands text cursor) (hrest : cursor.rest = c :: rest) (hc : ¬c.toNat < 128) {n : Nat}
    (hn : n ≤ c.utf8Size) :
    f ((State.of text cursor levels tokens).skip n) =
      f (State.of text (cursor.advance [c] rest) levels tokens) := by
  have hne : c ≠ '\n' := by
    rintro rfl
    exact hc (by decide)
  have hsize : byteLength [c] = c.utf8Size := Nat.add_zero _
  induction hleft : c.utf8Size - n generalizing n with
  | zero =>
    have hend : n = c.utf8Size := by omega
    rw [skip_of _ _ h hrest (fun hmem => hne (List.mem_singleton.1 hmem).symm)
      (hsize.trans hend.symm)]
  | succ left ih =>
    have hless : n < c.utf8Size := by omega
    have hlt : n < (bytesOf c).length := by rwa [length_bytesOf]
    have hbyte : byte? text ((State.of text cursor levels tokens).skip n).index =
        some (bytesOf c)[n] := by
      have hindex : ((State.of text cursor levels tokens).skip n).index =
          indexOf text cursor.rest + n := rfl
      rw [hindex, byte?_indexOf_add h.suffix, hrest, bytes_cons, List.getElem?_append_left hlt,
        List.getElem?_eq_getElem hlt]
    rw [hstep _ _ hbyte (le_of_mem_bytesOf hc (List.getElem_mem hlt))]
    exact ih (n := n + 1) (by omega) (by omega)

/-- Behind the first byte of a character that is no line feed, the others are passed over. -/
theorem skip_first {β : Type} {f : State → β} {c : Char}
    (hstep : ∀ s b, byte? text s.index = some b → 128 ≤ b.toNat → f s = f (s.skip 1))
    (h : Stands text cursor) (hrest : cursor.rest = c :: rest) (hne : c ≠ '\n') :
    f ((State.of text cursor levels tokens).skip 1) =
      f (State.of text (cursor.advance [c] rest) levels tokens) := by
  by_cases hc : c.toNat < 128
  · rw [skip_one_of h hrest hc hne]
  · exact across hstep h hrest hc c.utf8Size_pos

/-- A character is passed over with its first byte by what passes over each of the others. -/
theorem bump_bind {β : Type} {f : State → Scan β} {c : Char}
    (hstep : ∀ s b, byte? text s.index = some b → 128 ≤ b.toNat → f s = f (s.skip 1))
    (h : Stands text cursor) (hrest : cursor.rest = c :: rest) :
    liftM (bump text (State.of text cursor levels tokens)) >>= f =
      f (State.of text (cursor.advance [c] rest) levels tokens) := by
  by_cases hc : c.toNat < 128
  · rw [bump_of h hrest hc]
    rfl
  · have hbyte : byte? text (State.of text cursor levels tokens).index = some (firstByte c) := by
      rw [byte?_of h, hrest]
      rfl
    have hne : firstByte c ≠ '\n' := by
      intro heq
      exact absurd (heq ▸ le_firstByte hc) (by decide)
    have hline : c ≠ '\n' := by
      rintro rfl
      exact hc (by decide)
    rw [bump_of_ne hbyte hne, ← skip_first hstep h hrest hline]
    rfl

theorem slice?_splitLine (h : Stands text cursor) :
    slice? text (indexOf text cursor.rest) (indexOf text (splitLine cursor.rest).2) =
      some (splitLine cursor.rest).1 := by
  have happend := splitLine_append cursor.rest
  have hsuffix := h.suffix
  rw [← happend] at hsuffix
  have hslice := slice?_indexOf hsuffix
  rwa [happend] at hslice

/-- The fault of a text that fits no rule. -/
theorem unexpected_of (h : Stands text cursor) :
    unexpected text (State.of text cursor levels tokens) = some (Lexer.unexpected cursor) := by
  have hindex : (State.of text cursor levels tokens).index = indexOf text cursor.rest := rfl
  rw [unexpected, hindex, lineEnd?_indexOf h.suffix, some_bind, slice?_splitLine h, some_bind,
    place?_of h]
  rfl

/-- The state at the end of a line. -/
theorem of_splitLine (levels : List Nat) (tokens : List Token) (h : Stands text cursor) :
    (State.of text cursor levels tokens).goTo (indexOf text (splitLine cursor.rest).2) =
      State.of text (cursor.advance (splitLine cursor.rest).1 (splitLine cursor.rest).2) levels
        tokens :=
  (of_advance h (splitLine_append cursor.rest).symm (newline_not_mem_splitLine cursor.rest)).symm

/-- The rest of a line is one token. -/
theorem lexRest_of (h : Stands text cursor) (kind : String → TokenKind) :
    lexRest text kind (State.of text cursor levels tokens) =
      some (State.of text
        (cursor.advance (splitLine cursor.rest).1 (splitLine cursor.rest).2) levels
        (tokens ++ [cursor.token (kind (String.ofList (splitLine cursor.rest).1))
          (splitLine cursor.rest).1])) := by
  have hindex : (State.of text cursor levels tokens).index = indexOf text cursor.rest := rfl
  have hstop := h.advance (splitLine_append cursor.rest).symm
  rw [lexRest, hindex, lineEnd?_indexOf h.suffix, some_bind, slice?_splitLine h, some_bind,
    of_splitLine _ _ h, mark_of h hstop]
  rfl

theorem advance_nil (hrest : cursor.rest = rest) : cursor.advance [] rest = cursor := by
  rw [← hrest]
  rfl

theorem advance_advance (cursor : Cursor) (cs ds middle rest : List Char) :
    (cursor.advance cs middle).advance ds rest = cursor.advance (cs ++ ds) rest := by
  rw [Cursor.advance, Cursor.advance, Cursor.advance, Position.after_append]

/-- The text between two cursors is cut out between their states. -/
theorem slice?_of (levels : List Nat) (tokens : List Token) (h : Stands text cursor)
    (hrest : cursor.rest = taken ++ rest) :
    slice? text (State.of text cursor levels tokens).index
      (State.of text (cursor.advance taken rest) levels tokens).index = some taken := by
  have hsuffix := h.suffix
  rw [hrest] at hsuffix
  have hslice := slice?_indexOf hsuffix
  rwa [← hrest] at hslice

theorem index_beq_of (levels : List Nat) (tokens : List Token) (h : Stands text cursor)
    (hrest : cursor.rest = taken ++ rest) :
    ((State.of text (cursor.advance taken rest) levels tokens).index ==
      (State.of text cursor levels tokens).index) = taken.isEmpty := by
  have hsuffix := h.suffix
  rw [hrest] at hsuffix
  have hindex := indexOf_beq hsuffix
  rwa [← hrest] at hindex

/-! ### Runs of bytes -/

theorem any_byte?_of (h : Stands text cursor) {p : Char → Bool} (hp : IsAscii p) :
    (byte? text (State.of text cursor levels tokens).index).any p = cursor.rest.head?.any p :=
  any_byte?_indexOf h.suffix hp

/-- The bytes of a class are taken with their characters. -/
theorem skipWhile_of (levels : List Nat) (tokens : List Token) (h : Stands text cursor)
    {p : Char → Bool} (hp : IsAscii p) (hline : p '\n' = false) :
    skipWhile text p (State.of text cursor levels tokens) =
      some (State.of text (cursor.advance (cursor.rest.takeWhile p) (cursor.rest.dropWhile p))
        levels tokens) := by
  obtain ⟨place, cs⟩ := cursor
  induction cs generalizing place with
  | nil =>
    rw [skipWhile_def, any_byte?_of h hp]
    rfl
  | cons c cs ih =>
    rw [skipWhile_def, any_byte?_of h hp, List.head?_cons, Option.any_some]
    dsimp only
    by_cases hc : p c = true
    · have hne : c ≠ '\n' := by
        rintro rfl
        exact absurd hc (Bool.eq_false_iff.1 hline)
      rw [if_pos hc, skip_one_of h rfl (hp c hc) hne, List.takeWhile_cons_of_pos hc,
        List.dropWhile_cons_of_pos hc]
      exact ih _ (h.next rfl)
    · rw [if_neg hc, List.takeWhile_cons_of_neg hc, List.dropWhile_cons_of_neg hc]
      rfl

/-- An indentation is measured by its bytes. -/
theorem skip_measureIndent (levels : List Nat) (tokens : List Token) (h : Stands text cursor) :
    (State.of text cursor levels tokens).skip
        (measureIndent text (State.of text cursor levels tokens).index) =
      State.of text (cursor.advance (cursor.rest.takeWhile isInlineBlank)
        (cursor.rest.dropWhile isInlineBlank)) levels tokens := by
  have hindex : (State.of text cursor levels tokens).index = indexOf text cursor.rest := rfl
  rw [hindex, measureIndent_indexOf h.suffix]
  refine skip_of _ _ h List.takeWhile_append_dropWhile.symm (fun hmem => ?_)
    (byteLength_takeWhile isAscii_isInlineBlank _)
  exact ne_newline_of_isInlineBlank (List.mem_takeWhile_imp hmem) rfl

/-- A line break is taken. -/
theorem lineBreak_of {ending : List Char} (h : Stands text cursor)
    (hrest : cursor.rest = ending ++ rest) (hending : ending = ['\n'] ∨ ending = ['\r', '\n']) :
    lineBreak text (State.of text cursor levels tokens) =
      some (State.of text (cursor.advance ending rest) levels tokens) := by
  rcases hending with rfl | rfl
  · have hrest : cursor.rest = '\n' :: rest := hrest
    have hreturn : byte? text (State.of text cursor levels tokens).index = some '\n' := by
      rw [byte?_of h, hrest]
      rfl
    have hnot : ¬(some '\n' == some '\r') = true := by decide
    rw [lineBreak, hreturn, if_neg hnot, hreturn, if_pos (beq_self_eq_true (some '\n')),
      bump_of h hrest (by decide)]
  · have hrest : cursor.rest = '\r' :: '\n' :: rest := hrest
    have hreturn : byte? text (State.of text cursor levels tokens).index = some '\r' := by
      rw [byte?_of h, hrest]
      rfl
    have hinside := h.next hrest
    have hfeed : byte? text (State.of text (cursor.advance ['\r'] ('\n' :: rest)) levels
        tokens).index = some '\n' := byte?_of hinside
    rw [lineBreak, hreturn, if_pos (beq_self_eq_true (some '\r')),
      skip_one_of h hrest (by decide) (by decide), hfeed, if_pos (beq_self_eq_true (some '\n')),
      bump_of hinside rfl (by decide), advance_advance]
    rfl

end States

end Scanner

end PugLint
