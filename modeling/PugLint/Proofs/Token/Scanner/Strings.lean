import PugLint.Proofs.Token.LineEndings.Scanning
import PugLint.Proofs.Token.Scanner.States

/-!
# Scans of strings

Strings, groups and values go on over line feeds and over characters of any length, and a backslash
takes only the first byte of the character behind it. Still a scan of them ends where the reader
does, in front of a character, and its depth never falls below zero.

* `Scanner.skipString_of`: strings;
* `Scanner.skipValue_of`, `Scanner.skipBalanced_of`: values, and groups in parentheses.
-/

namespace PugLint

namespace Scanner

open Text Lexer

/-- A scan with a result. -/
def done {α : Type} (result : Except LexError α) : Scan α :=
  ExceptT.mk (some result)

theorem lift_bind {α β : Type} (a : α) (f : α → Scan β) : liftM (some a) >>= f = f a := rfl

theorem done_bind {α β : Type} (a : α) (f : α → Scan β) : done (.ok a) >>= f = f a := rfl

theorem ok_bind {α β : Type} (a : α) (f : α → Except LexError β) : .ok a >>= f = f a := rfl

/-! ### Strings in values and groups -/

/-- A scan that goes on `inside` of a string up to its closing quote, and `outside` behind it, takes
what a scan of strings takes. -/
theorem taking_string {quote : Char} {start : Position}
    {inside outside : Position → List Char → Except LexError (List Char × List Char)}
    (hnil : ∀ p, inside p [] = .error (.unterminatedString start))
    (hlone : ∀ p, inside p ['\\'] = taking ['\\'] (inside (p.next '\\') []))
    (hescape : ∀ p c cs,
      inside p ('\\' :: c :: cs) = taking ['\\', c] (inside ((p.next '\\').next c) cs))
    (hclose : ∀ p cs, inside p (quote :: cs) = taking [quote] (outside (p.next quote) cs))
    (hcons : ∀ p c cs, c ≠ '\\' → ¬(c == quote) = true →
      inside p (c :: cs) = taking [c] (inside (p.next c) cs))
    (p : Position) (cs : List Char) :
    inside p cs =
      match scanString quote cs with
      | none => .error (.unterminatedString start)
      | some (taken, rest) => taking taken (outside (p.after taken) rest) := by
  fun_induction scanString quote cs generalizing p with
  | case1 => exact hnil p
  | case2 c cs ih =>
    rw [hescape, ih]
    cases scanString quote cs with
    | none => rfl
    | some found => exact taking_taking _ _ _
  | case3 c cs _ hc =>
    obtain rfl := beq_iff_eq.1 hc
    exact hclose p cs
  | case4 c cs hnext hc ih =>
    have hread : inside p (c :: cs) = taking [c] (inside (p.next c) cs) := by
      by_cases hslash : c = '\\'
      · subst hslash
        rcases cs with _ | ⟨d, ds⟩
        · exact hlone p
        · exact absurd rfl (hnext d ds rfl)
      · exact hcons p c cs hslash hc
    rw [hread, ih]
    cases scanString quote cs with
    | none => rfl
    | some found => exact taking_taking _ _ _

/-- A value goes on behind a string in it. -/
theorem scanValue_string {quote : Char} (hquote : isQuote quote = true) (depth : Nat)
    (start p : Position) (cs : List Char) :
    scanValue depth (.inside quote start) p cs =
      match scanString quote cs with
      | none => .error (.unterminatedString start)
      | some (taken, rest) => taking taken (scanValue depth .outside (p.after taken) rest) := by
  refine taking_string (fun _ => rfl) (fun _ => rfl) (fun _ _ _ => rfl) (fun p cs => ?_)
    (fun p c cs hslash hc => ?_) p cs
  · rw [scanValue_inside_cons (ne_of_isQuote hquote).2.2, if_pos (beq_self_eq_true quote)]
  · rw [scanValue_inside_cons hslash, if_neg hc]

/-- A group goes on behind a string in it. -/
theorem scanGroup_string {quote : Char} (hquote : isQuote quote = true) (start : Position)
    (depth : Nat) (opened p : Position) (cs : List Char) :
    scanGroup start depth (.inside quote opened) p cs =
      match scanString quote cs with
      | none => .error (.unterminatedString opened)
      | some (taken, rest) =>
        taking taken (scanGroup start depth .outside (p.after taken) rest) := by
  refine taking_string (fun _ => rfl) (fun _ => rfl) (fun _ _ _ => rfl) (fun p cs => ?_)
    (fun p c cs hslash hc => ?_) p cs
  · rw [scanGroup_inside_cons (ne_of_isQuote hquote).2.2, if_pos (beq_self_eq_true quote)]
  · rw [scanGroup_inside_cons hslash, if_neg hc]

section Strings

variable {text rest : List Char} {cursor : Cursor} {levels : List Nat} {tokens : List Token}

/-- In a string, the bytes of longer characters are passed over. -/
theorem skipString_skip {quote : Char} (hquote : isQuote quote = true) (start : Position)
    {s : State} {b : Char} (hbyte : byte? text s.index = some b) (hb : 128 ≤ b.toNat) :
    skipString text quote start s = skipString text quote start (s.skip 1) := by
  have hne {d : Char} (hd : d.toNat < 128) : ¬(b == d) = true := by
    rw [beq_iff_eq]
    rintro rfl
    exact Nat.not_lt_of_le hb hd
  rw [skipString_def, hbyte]
  dsimp only
  rw [if_neg (hne (by decide)), if_neg (hne (isAscii_isQuote quote hquote)),
    bump_of_ne hbyte fun h => hne (d := '\n') (by decide) (beq_iff_eq.2 h)]
  rfl

/-- A string is taken with its closing quote, whatever the bytes in it. -/
theorem skipString_of {quote : Char} (hquote : isQuote quote = true) (start : Position)
    (h : Stands text cursor) :
    skipString text quote start (State.of text cursor levels tokens) =
      match scanString quote cursor.rest with
      | none => done (.error (.unterminatedString start))
      | some (taken, rest) =>
        done (.ok (State.of text (cursor.advance taken rest) levels tokens)) := by
  have hstep (s : State) (b : Char) (hbyte : byte? text s.index = some b) (hb : 128 ≤ b.toNat) :=
    skipString_skip hquote start hbyte hb
  obtain ⟨place, cs⟩ := cursor
  fun_induction scanString quote cs generalizing place with
  | case1 =>
    rw [skipString_def, byte?_of h]
    rfl
  | case2 c cs ih =>
    -- The byte behind a backslash is passed over, and with it the rest of its character.
    have hslash : byte? text (State.of text ⟨place, '\\' :: c :: cs⟩ levels tokens).index =
        some '\\' := byte?_of h
    have hinside := h.next rfl
    rw [skipString_def, hslash]
    dsimp only
    rw [if_pos (beq_self_eq_true '\\'), byte?_of_succ h rfl (by decide), List.head?_cons,
      Option.map_some, Option.isSome_some, if_pos rfl, skip_one_of h rfl (by decide) (by decide),
      bump_bind hstep hinside rfl]
    refine (ih _ (hinside.next rfl)).trans ?_
    have hread : scanString quote ('\\' :: c :: cs) =
        (scanString quote cs).map fun found => ('\\' :: c :: found.1, found.2) := rfl
    rw [hread]
    cases scanString quote cs <;> rfl
  | case3 c cs _ hc =>
    obtain rfl := beq_iff_eq.1 hc
    have hascii := isAscii_isQuote c hquote
    obtain ⟨hnewline, -, hslash⟩ := ne_of_isQuote hquote
    have hbyte : byte? text (State.of text ⟨place, c :: cs⟩ levels tokens).index = some c := by
      rw [byte?_of h, List.head?_cons, Option.map_some, firstByte_of_lt hascii]
    rw [skipString_def, hbyte]
    dsimp only
    rw [if_neg (by simpa using hslash), if_pos hc, skip_one_of h rfl hascii hnewline,
      scanString_cons hslash, if_pos hc]
    rfl
  | case4 c cs hlone hc ih =>
    have hbyte : byte? text (State.of text ⟨place, c :: cs⟩ levels tokens).index =
        some (firstByte c) := byte?_of h
    rw [skipString_def, hbyte]
    dsimp only
    rw [(isAscii_beq (by decide)).firstByte, (isAscii_beq (isAscii_isQuote quote hquote)).firstByte]
    by_cases hslash : c = '\\'
    · -- A backslash at the end of the text.
      subst hslash
      rcases cs with _ | ⟨d, ds⟩
      · have hinside := h.next rfl
        have hread : scanString quote ['\\'] = (scanString quote []).map fun found =>
            ('\\' :: found.1, found.2) := if_neg hc
        rw [if_pos (beq_self_eq_true '\\'), byte?_of_succ h rfl (by decide), List.head?_nil,
          Option.map_none, Option.isSome_none, if_neg Bool.false_ne_true,
          skip_one_of h rfl (by decide) (by decide), hread]
        exact ih _ hinside
      · exact absurd rfl (hlone d ds rfl)
    · rw [if_neg (by simpa using hslash), if_neg hc, bump_bind hstep h rfl,
        scanString_cons hslash, if_neg hc]
      refine (ih _ (h.next rfl)).trans ?_
      cases scanString quote cs <;> rfl

/-- A scan goes on behind the string that a quote opens. -/
theorem quoted_bind {α : Type} {place : Position} {c : Char} {cs : List Char}
    (hquote : isQuote c = true) (h : Stands text ⟨place, c :: cs⟩) (f : State → Scan α) :
    (do
      let opened ← (State.of text ⟨place, c :: cs⟩ levels tokens).place?
      let s ← skipString text (firstByte c) opened
        ((State.of text ⟨place, c :: cs⟩ levels tokens).skip 1)
      f s) =
      match scanString c cs with
      | none => done (.error (.unterminatedString place))
      | some (taken, rest) =>
        f (State.of text ⟨(place.next c).after taken, rest⟩ levels tokens) := by
  have hascii := isAscii_isQuote c hquote
  rw [place?_of h, lift_bind, firstByte_of_lt hascii,
    skip_one_of h rfl hascii (ne_of_isQuote hquote).1,
    skipString_of hquote place (h.next rfl)]
  dsimp only [Cursor.advance]
  cases scanString c cs <;> rfl

/-! ### Values and groups -/

/-- The state behind what a scan takes. -/
def after (text : List Char) (cursor : Cursor) (levels : List Nat) (tokens : List Token)
    (result : Except LexError (List Char × List Char)) : Scan State :=
  done (result.map fun found => State.of text (cursor.advance found.1 found.2) levels tokens)

theorem after_taking (taken behind : List Char)
    (result : Except LexError (List Char × List Char)) :
    after text cursor levels tokens (taking taken result) =
      after text (cursor.advance taken behind) levels tokens result := by
  cases result with
  | error fault => rfl
  | ok found =>
    have hcursor : cursor.advance (taken ++ found.1) found.2 =
        (cursor.advance taken behind).advance found.1 found.2 := by
      rw [Cursor.advance, Position.after_append]
      rfl
    exact congrArg (fun cursor => done (.ok (State.of text cursor levels tokens))) hcursor

theorem isAscii_opening : IsAscii fun c => c == '(' || c == '[' || c == '\x7b' :=
  ((isAscii_beq (by decide)).or (isAscii_beq (by decide))).or (isAscii_beq (by decide))

theorem isAscii_closing : IsAscii fun c => c == ')' || c == ']' || c == '\x7d' :=
  ((isAscii_beq (by decide)).or (isAscii_beq (by decide))).or (isAscii_beq (by decide))

theorem isAscii_ending : IsAscii fun c => c == ')' || c == ',' || isAsciiBlank c :=
  ((isAscii_beq (by decide)).or (isAscii_beq (by decide))).or isAscii_isAsciiBlank

theorem IsAscii.not_of_le {p : Char → Bool} (hp : IsAscii p) {b : Char} (hb : 128 ≤ b.toNat) :
    ¬p b = true :=
  fun h => Nat.not_lt_of_le hb (hp b h)

theorem bump_of_le {s : State} {b : Char} (hbyte : byte? text s.index = some b)
    (hb : 128 ≤ b.toNat) : bump text s = some (s.skip 1) := by
  refine bump_of_ne hbyte ?_
  rintro rfl
  exact absurd hb (by decide)

/-- In a value, the bytes of longer characters are passed over. -/
theorem skipValue_skip (depth : Nat) {s : State} {b : Char} (hbyte : byte? text s.index = some b)
    (hb : 128 ≤ b.toNat) : skipValue text depth s = skipValue text depth (s.skip 1) := by
  have hclosing := isAscii_closing.not_of_le hb
  have hending := isAscii_ending.not_of_le hb
  rw [skipValue_def, hbyte]
  dsimp only
  rw [if_neg (isAscii_isQuote.not_of_le hb), if_neg (isAscii_opening.not_of_le hb),
    if_neg (mt (fun h => (Bool.and_eq_true_iff.1 h).1) hclosing),
    if_neg (mt (fun h => (Bool.and_eq_true_iff.1 h).2) hending), bump_of_le hbyte hb]
  rfl

/-- A value is taken up to its end, whatever the bytes in it. -/
theorem skipValue_of (depth : Nat) (h : Stands text cursor) :
    skipValue text depth (State.of text cursor levels tokens) =
      after text cursor levels tokens (scanValue depth .outside cursor.place cursor.rest) := by
  have hstep (depth : Nat) (s : State) (b : Char) (hbyte : byte? text s.index = some b)
    (hb : 128 ≤ b.toNat) := skipValue_skip depth hbyte hb
  obtain ⟨place, cs⟩ := cursor
  obtain ⟨length, hlength⟩ : ∃ length, cs.length = length := ⟨_, rfl⟩
  induction length using Nat.strong_induction_on generalizing place cs depth with
  | _ length ih =>
  subst hlength
  rcases cs with _ | ⟨c, cs⟩
  · rw [skipValue_def, byte?_of h]
    rfl
  have hbyte : byte? text (State.of text ⟨place, c :: cs⟩ levels tokens).index =
      some (firstByte c) := byte?_of h
  have hnext := h.next rfl
  rw [skipValue_def, hbyte, scanValue]
  dsimp only
  rw [isAscii_isQuote.firstByte c, isAscii_opening.firstByte c, isAscii_closing.firstByte c,
    isAscii_ending.firstByte c]
  by_cases hquote : isQuote c = true
  · rw [if_pos hquote, if_pos hquote, quoted_bind hquote h, scanValue_string hquote,
      after_taking [c] cs]
    cases hstring : scanString c cs with
    | none => rfl
    | some found =>
      obtain ⟨taken, rest⟩ := found
      have hcs := (eq_append_of_scanString hstring).1
      have hlt : rest.length < (c :: cs).length := by
        rw [hcs, List.length_cons, List.length_append]
        omega
      rw [after_taking taken rest]
      exact ih _ hlt depth _ rest (hnext.advance hcs) rfl
  rw [if_neg hquote, if_neg hquote]
  by_cases hopening : (c == '(' || c == '[' || c == '\x7b') = true
  · rw [if_pos hopening, if_pos hopening, bump_bind (hstep _) h rfl, after_taking [c] cs]
    exact ih _ (Nat.lt_succ_self _) (depth + 1) _ cs hnext rfl
  rw [if_neg hopening, if_neg hopening]
  by_cases hclosing : ((c == ')' || c == ']' || c == '\x7d') && decide (0 < depth)) = true
  · have hdepth : 0 < depth := of_decide_eq_true (Bool.and_eq_true_iff.1 hclosing).2
    rw [if_pos hclosing, if_pos hclosing, minus?_of_le (b := 1) hdepth, lift_bind,
      bump_bind (hstep _) h rfl, after_taking [c] cs]
    exact ih _ (Nat.lt_succ_self _) (depth - 1) _ cs hnext rfl
  rw [if_neg hclosing, if_neg hclosing]
  by_cases hending : (depth == 0 && (c == ')' || c == ',' || isAsciiBlank c)) = true
  · rw [if_pos hending, if_pos hending]
    rfl
  · rw [if_neg hending, if_neg hending, bump_bind (hstep _) h rfl, after_taking [c] cs]
    exact ih _ (Nat.lt_succ_self _) depth _ cs hnext rfl

/-- In a group, the bytes of longer characters are passed over. -/
theorem skipBalanced_skip (start : Position) (depth : Nat) {s : State} {b : Char}
    (hbyte : byte? text s.index = some b) (hb : 128 ≤ b.toNat) :
    skipBalanced text start depth s = skipBalanced text start depth (s.skip 1) := by
  rw [skipBalanced_def, hbyte]
  dsimp only
  rw [if_neg (isAscii_isQuote.not_of_le hb),
    if_neg ((isAscii_beq (d := '(') (by decide)).not_of_le hb),
    if_neg ((isAscii_beq (d := ')') (by decide)).not_of_le hb), bump_of_le hbyte hb]
  rfl

/-- A group is taken with the parenthesis that closes it. -/
theorem skipBalanced_of (start : Position) {depth : Nat} (hdepth : 0 < depth)
    (h : Stands text cursor) :
    skipBalanced text start depth (State.of text cursor levels tokens) =
      after text cursor levels tokens
        (scanGroup start depth .outside cursor.place cursor.rest) := by
  have hstep (depth : Nat) (s : State) (b : Char) (hbyte : byte? text s.index = some b)
    (hb : 128 ≤ b.toNat) := skipBalanced_skip start depth hbyte hb
  obtain ⟨place, cs⟩ := cursor
  obtain ⟨length, hlength⟩ : ∃ length, cs.length = length := ⟨_, rfl⟩
  induction length using Nat.strong_induction_on generalizing place cs depth with
  | _ length ih =>
  subst hlength
  rcases cs with _ | ⟨c, cs⟩
  · rw [skipBalanced_def, byte?_of h]
    rfl
  have hbyte : byte? text (State.of text ⟨place, c :: cs⟩ levels tokens).index =
      some (firstByte c) := byte?_of h
  have hnext := h.next rfl
  rw [skipBalanced_def, hbyte, scanGroup]
  dsimp only
  rw [isAscii_isQuote.firstByte c, (isAscii_beq (d := '(') (by decide)).firstByte c,
    (isAscii_beq (d := ')') (by decide)).firstByte c]
  by_cases hquote : isQuote c = true
  · rw [if_pos hquote, if_pos hquote, quoted_bind hquote h, scanGroup_string hquote,
      after_taking [c] cs]
    cases hstring : scanString c cs with
    | none => rfl
    | some found =>
      obtain ⟨taken, rest⟩ := found
      have hcs := (eq_append_of_scanString hstring).1
      have hlt : rest.length < (c :: cs).length := by
        rw [hcs, List.length_cons, List.length_append]
        omega
      rw [after_taking taken rest]
      exact ih _ hlt hdepth _ rest (hnext.advance hcs) rfl
  rw [if_neg hquote, if_neg hquote]
  by_cases hopening : (c == '(') = true
  · rw [if_pos hopening, if_pos hopening, bump_bind (hstep _) h rfl, after_taking [c] cs]
    exact ih _ (Nat.lt_succ_self _) (Nat.succ_pos depth) _ cs hnext rfl
  rw [if_neg hopening, if_neg hopening]
  by_cases hclosing : (c == ')') = true
  · obtain rfl := beq_iff_eq.1 hclosing
    rw [if_pos hclosing, if_pos hclosing, minus?_of_le (b := 1) hdepth, lift_bind]
    by_cases hlast : depth ≤ 1
    · have hzero : (depth - 1 == 0) = true := by
        rw [beq_iff_eq]
        omega
      rw [if_pos hzero, if_pos hlast, skip_one_of h rfl (by decide) (by decide)]
      rfl
    · have hzero : ¬(depth - 1 == 0) = true := by
        rw [beq_iff_eq]
        omega
      rw [if_neg hzero, if_neg hlast, bump_bind (hstep _) h rfl, after_taking [')'] cs]
      exact ih _ (Nat.lt_succ_self _) (by omega) _ cs hnext rfl
  · rw [if_neg hclosing, if_neg hclosing, bump_bind (hstep _) h rfl, after_taking [c] cs]
    exact ih _ (Nat.lt_succ_self _) hdepth _ cs hnext rfl

/-- A group is taken from in front of its first parenthesis on. -/
theorem skipBalanced_opening (start : Position) (h : Stands text cursor)
    (hrest : cursor.rest = '(' :: rest) :
    skipBalanced text start 0 (State.of text cursor levels tokens) =
      after text (cursor.advance ['('] rest) levels tokens
        (scanGroup start 1 .outside (cursor.place.after ['(']) rest) := by
  have hbyte : byte? text (State.of text cursor levels tokens).index = some '(' := by
    rw [byte?_of h, hrest, map_firstByte_cons (by decide)]
  have hnext := h.next hrest
  have hopening : ¬isQuote '(' = true := by decide
  rw [skipBalanced_def, hbyte]
  dsimp only
  rw [if_neg hopening, if_pos (beq_self_eq_true '('), bump_of h hrest (by decide), lift_bind]
  exact skipBalanced_of start Nat.one_pos hnext

end Strings

end Scanner

end PugLint
