import PugLint.Proofs.Token.LineEndings.Scanning
import PugLint.Proofs.Token.Reading

/-!
# Line breaks and the tokens of a template

The lexer reads a text with carriage returns along with the text without them: the heads of
elements, lines, blocks of raw text and the template as a whole.

* `tokenize_crlf`: line endings do not matter.
-/

namespace PugLint

namespace Lexer

open Text

/-! ### Elements -/

@[simp] theorem LineTokens.crlf_prepending (tokens : List Token) (line : LineTokens) :
    (line.prepending tokens).crlf = line.crlf.prepending (tokens.map Token.crlf) := by
  simp [LineTokens.crlf, LineTokens.prepending]

@[simp] theorem LineTokens.crlf_tokens (line : LineTokens) :
    line.crlf.tokens = line.tokens.map Token.crlf := rfl

@[simp] theorem LineTokens.crlf_cursor (line : LineTokens) :
    line.crlf.cursor = line.cursor.crlf := rfl

@[simp] theorem LineTokens.crlf_opensBlock (line : LineTokens) :
    line.crlf.opensBlock = line.opensBlock := rfl

/-- What is read in front of the rest of a line is changed on its own. -/
theorem map_prepending_crlf (tokens : List Token) (x : Except LexError LineTokens) :
    (x.map (.prepending tokens)).map LineTokens.crlf =
      (x.map LineTokens.crlf).map (.prepending (tokens.map Token.crlf)) := by
  cases x with
  | error e => rfl
  | ok line => exact congrArg Except.ok (LineTokens.crlf_prepending tokens line)

/-- A token over a part of one line, and the end of the line behind it. -/
theorem lastToken_crlf {kind : TokenKind} {taken : List Char}
    (hkind : kind.mapTexts Text.crlf = kind) (h : '\n' ∉ taken) (cursor : Cursor)
    (rest : List Char) (opensBlock : Bool) :
    lastToken cursor.crlf kind taken (crlfChars rest) opensBlock =
      (lastToken cursor kind taken rest opensBlock).crlf := by
  rw [lastToken, lastToken, LineTokens.crlf, List.map_singleton, ← Cursor.crlf_token,
    ← Cursor.crlf_advance, crlfChars_of_notMem h, hkind]

theorem readText_crlf {cursor : Cursor} (h : '\r' ∉ cursor.rest) :
    readText cursor.crlf = (readText cursor).crlf := by
  have hline := newline_not_mem_splitLine cursor.rest
  have hsplit : splitLine cursor.crlf.rest = _ := splitLine_crlfChars h
  rw [readText, readText, hsplit]
  refine lastToken_crlf ?_ hline _ _ _
  rw [TokenKind.mapTexts, crlf_ofList_of_notMem hline]

theorem readCode_crlf {cursor : Cursor} (h : '\r' ∉ cursor.rest) (size : Nat) (buffered : Bool) :
    readCode cursor.crlf size buffered = (readCode cursor size buffered).crlf := by
  have hline := newline_not_mem_splitLine cursor.rest
  have hsplit : splitLine cursor.crlf.rest = _ := splitLine_crlfChars h
  have hcode : '\n' ∉ trimLeft ((splitLine cursor.rest).1.drop size) := fun hm =>
    hline (List.mem_of_mem_drop (mem_of_mem_trimLeft hm))
  rw [readCode, readCode, hsplit]
  refine lastToken_crlf ?_ hline _ _ _
  rw [TokenKind.mapTexts, crlf_ofList_of_notMem hcode]

theorem scanTag_crlfChars (cs : List Char) :
    scanTag (crlfChars cs) = crlfParts (scanTag cs) := by
  have hrun : '\n' ∉ cs.takeWhile isTagChar := fun hm =>
    absurd (List.mem_takeWhile_imp hm) (by decide)
  have hending : '\n' ∉ ((cs.takeWhile isTagChar).reverse.takeWhile
      fun c => c == ':' || c == '-').reverse := fun hm =>
    hrun (List.mem_reverse.1 ((List.takeWhile_prefix _).mem (List.mem_reverse.1 hm)))
  rw [scanTag, scanTag, takeWhile_crlfChars rfl, dropWhile_crlfChars rfl, crlfChars_of_notMem hrun]
  dsimp only [crlfParts]
  rw [crlfChars_append, crlfChars_of_notMem fun hm => hrun (List.mem_of_mem_take hm),
    crlfChars_of_notMem hending]

theorem isPrefixOf_crlfChars {marker : List Char} (hn : '\n' ∉ marker) (hr : '\r' ∉ marker)
    (cs : List Char) : marker.isPrefixOf (crlfChars cs) = marker.isPrefixOf cs := by
  induction marker generalizing cs with
  | nil => simp
  | cons d marker ih =>
    rcases cs with _ | ⟨c, cs⟩
    · rfl
    · have ih := ih (List.not_mem_of_not_mem_cons hn) (List.not_mem_of_not_mem_cons hr)
      by_cases hbreak : c = '\n'
      · subst hbreak
        have hd := List.ne_of_not_mem_cons hn
        have hd' := List.ne_of_not_mem_cons hr
        rw [crlfChars_newline, List.isPrefixOf, List.isPrefixOf, beq_false_of_ne hd.symm,
          beq_false_of_ne hd'.symm]
        rfl
      · rw [crlfChars_cons hbreak, List.isPrefixOf, List.isPrefixOf, ih]

/-- The text behind a part of the head of an element is read on in the same way. -/
def ReadsOnAlike (fuel fuel' : Nat) (cursor : Cursor) : Prop :=
  ∀ {started : Bool} {taken : List Char} {stop : Cursor}, cursor.rest = taken ++ stop.rest →
    taken ≠ [] → readElement fuel' started stop.crlf =
      (readElement fuel started stop).map LineTokens.crlf

variable {fuel fuel' : Nat} {place : Position} {c : Char} {cs : List Char}

/-- A token over the first character of a text that starts with no line break. -/
theorem Cursor.crlf_token_head (hbreak : c ≠ '\n') {kind : TokenKind}
    (hkind : kind.mapTexts Text.crlf = kind) (cursor : Cursor) :
    cursor.crlf.token kind [c] = (cursor.token kind [c]).crlf := by
  rw [← Cursor.crlf_token, hkind, crlfChars_cons hbreak, crlfChars_nil]

theorem Cursor.crlf_advance_head (hbreak : c ≠ '\n') (cursor : Cursor) (rest : List Char) :
    cursor.crlf.advance [c] (crlfChars rest) = (cursor.advance [c] rest).crlf := by
  rw [← Cursor.crlf_advance, crlfChars_cons hbreak, crlfChars_nil]

/-- A list of attributes in the head of an element. -/
theorem readList_crlf {cursor : Cursor} (hcursor : cursor.rest = c :: cs) (hbreak : c ≠ '\n')
    (h : '\r' ∉ cs) (hnext : ReadsOnAlike fuel fuel' cursor) :
    (do
      let (attributes, closed) ← readAttributes cursor.place ((crlfChars cs).length + 1)
        (cursor.crlf.advance [c] (crlfChars cs))
      let line ← readElement fuel' true closed
      return line.prepending (cursor.crlf.token .startAttributes [c] :: attributes)) =
    Except.map LineTokens.crlf (do
      let (attributes, closed) ← readAttributes cursor.place (cs.length + 1)
        (cursor.advance [c] cs)
      let line ← readElement fuel true closed
      return line.prepending (cursor.token .startAttributes [c] :: attributes)) := by
  have hattributes := @readAttributes_crlf cursor.place (cs.length + 1)
    ((crlfChars cs).length + 1) (cursor.advance [c] cs)
    ⟨Nat.lt_succ_self _, Nat.lt_succ_self _⟩ h
  rw [Cursor.crlf_advance_head hbreak, Cursor.crlf_token_head hbreak rfl, hattributes]
  cases hread : readAttributes cursor.place (cs.length + 1) (cursor.advance [c] cs) with
  | error e => rfl
  | ok found =>
    obtain ⟨attributes, closed⟩ := found
    obtain ⟨taken, htaken, -, -⟩ := reads_readAttributes hread
    have hsplit : cursor.rest = c :: taken ++ closed.rest := by
      rw [hcursor, List.cons_append, ← htaken]
      rfl
    have hclosed := @hnext true _ _ hsplit (List.cons_ne_nil _ _)
    simp only [Except.map, bind, Except.bind]
    rw [hclosed]
    cases readElement fuel true closed with
    | error e => rfl
    | ok line =>
      exact congrArg Except.ok (LineTokens.crlf_prepending
        (cursor.token .startAttributes [c] :: attributes) line).symm

/-- A spread of attributes in the head of an element. -/
theorem readSpread_crlf {marker behind : List Char} {cursor : Cursor} {start p : Position}
    (hcursor : cursor.rest = marker ++ behind)
    (hmarker : '\n' ∉ marker) (hne : marker ≠ []) (hnext : ReadsOnAlike fuel fuel' cursor) :
    (do
      let (group, rest) ← scanGroup start 1 .outside p (crlfChars behind)
      let line ← readElement fuel' true (cursor.crlf.advance (marker ++ group) rest)
      return line.prepending
        [cursor.crlf.token (.andAttributes (String.ofList group.dropLast)) (marker ++ group)]) =
    Except.map LineTokens.crlf (do
      let (group, rest) ← scanGroup start 1 .outside p behind
      let line ← readElement fuel true (cursor.advance (marker ++ group) rest)
      return line.prepending
        [cursor.token (.andAttributes (String.ofList group.dropLast)) (marker ++ group)]) := by
  have hscan : scanGroup start 1 .outside p (crlfChars behind) = _ := scanGroup_crlfChars nofun
  rw [hscan]
  cases hgroup : scanGroup start 1 .outside p behind with
  | error e => rfl
  | ok found =>
    obtain ⟨group, rest⟩ := found
    obtain ⟨rfl, body, rfl⟩ := eq_append_of_scanGroup hgroup
    have hsplit : cursor.rest = marker ++ (body ++ [')']) ++ rest := by
      rw [hcursor]
      simp only [List.append_assoc]
    have hbehind := @hnext true _ (cursor.advance (marker ++ (body ++ [')'])) rest) hsplit
      (List.append_ne_nil_of_left_ne_nil hne _)
    have hbody : (crlfChars (body ++ [')'])).dropLast = crlfChars body := by
      rw [crlfChars_append, crlfChars_cons (by decide), crlfChars_nil, List.dropLast_concat]
    rw [← Cursor.crlf_advance, crlfChars_append, crlfChars_of_notMem hmarker] at hbehind
    simp only [Except.map, bind, Except.bind, crlfParts]
    rw [hbehind]
    cases readElement fuel true (cursor.advance (marker ++ (body ++ [')'])) rest) with
    | error e => rfl
    | ok line =>
      simp only [pure, Except.pure, Except.map, LineTokens.crlf_prepending, List.map_singleton,
        ← Cursor.crlf_token, TokenKind.mapTexts, crlf_ofList, List.dropLast_concat, hbody]
      rw [crlfChars_append marker, crlfChars_of_notMem hmarker]

/-- The head of an element stands on one line, but for its attributes. -/
theorem readElement_crlf {started : Bool} {cursor : Cursor}
    (hturns : Turns fuel fuel' cursor.rest) (h : '\r' ∉ cursor.rest) :
    readElement fuel' started cursor.crlf =
      (readElement fuel started cursor).map LineTokens.crlf := by
  induction fuel generalizing fuel' started cursor with
  | zero => exact absurd hturns.plain (Nat.not_lt_zero _)
  | succ fuel ih =>
    obtain ⟨turns, turns', -, rfl⟩ := hturns.exists_succ
    have hend : isLineEnd cursor.crlf.rest = _ := isLineEnd_crlfChars h
    have hnext : ReadsOnAlike fuel turns' cursor := fun hsplit hne =>
      ih (hturns.pass hsplit hne) fun hm => h (hsplit ▸ List.mem_append_right _ hm)
    rw [readElement, readElement, hend, apply_ite (Except.map LineTokens.crlf)]
    refine ite_congr rfl (fun _ => rfl) fun hend => ?_
    obtain ⟨place, rest⟩ := cursor
    rcases rest with _ | ⟨c, cs⟩
    · rfl
    have hbreak : c ≠ '\n' := by
      rintro rfl
      exact hend rfl
    have hplain := List.not_mem_of_not_mem_cons h
    have hcursor : (⟨place, c :: crlfChars cs⟩ : Cursor) = Cursor.crlf ⟨place, c :: cs⟩ := by
      rw [Cursor.crlf, crlfChars_cons hbreak]
    simp only [Cursor.crlf]
    simp only [crlfChars_cons hbreak]
    simp only [hcursor]
    -- The same characters decide what follows in both texts.
    rw [apply_ite (Except.map LineTokens.crlf)]
    refine ite_congr rfl (fun hc => ?_) fun _ => ?_
    · -- The name of the element.
      have hc' := (Bool.and_eq_true_iff.1 hc).2
      obtain ⟨name, rest, hscan⟩ : ∃ name rest, scanTag (c :: cs) = (name, rest) := ⟨_, _, rfl⟩
      obtain ⟨more, hmore⟩ := exists_cons_of_scanTag hscan hc'
      have hsplit := scanTag_append (c :: cs)
      rw [hscan] at hsplit
      rw [← crlfChars_cons hbreak, scanTag_crlfChars, hscan]
      dsimp only [crlfParts]
      rw [map_prepending_crlf, Cursor.crlf_advance,
        hnext hsplit.symm (hmore ▸ List.cons_ne_nil _ _), List.map_singleton,
        ← Cursor.crlf_token, TokenKind.mapTexts, crlf_ofList]
    rw [apply_ite (Except.map LineTokens.crlf), any_head?_crlfChars rfl]
    refine ite_congr rfl (fun hc => ?_) fun _ => ?_
    · -- A class or an identifier.
      have hsplit : c :: cs = c :: cs.takeWhile isLiteralChar ++ cs.dropWhile isLiteralChar := by
        rw [List.cons_append, List.takeWhile_append_dropWhile]
      rw [map_prepending_crlf, takeWhile_crlfChars rfl, dropWhile_crlfChars rfl,
        ← crlfChars_cons hbreak, Cursor.crlf_advance, hnext hsplit (List.cons_ne_nil _ _),
        List.map_singleton, ← Cursor.crlf_token, ← crlf_ofList]
      split <;> rfl
    rw [apply_ite (Except.map LineTokens.crlf)]
    refine ite_congr rfl (fun hc => ?_) fun _ => ?_
    · -- A dot, which stands at the end of its line.
      have hrest : '\r' ∉ cs.dropWhile isInlineBlank := fun hm =>
        hplain ((List.dropWhile_suffix _).mem hm)
      rw [apply_ite (Except.map LineTokens.crlf), takeWhile_crlfChars rfl, dropWhile_crlfChars rfl,
        isLineEnd_crlfChars hrest]
      refine ite_congr rfl (fun hc => ?_) fun _ => ?_
      · rw [← crlfChars_cons hbreak, Cursor.crlf_advance, Cursor.crlf_token_head hbreak rfl]
        rfl
      · exact congrArg Except.error (unexpected_crlf h)
    rw [apply_ite (Except.map LineTokens.crlf)]
    refine ite_congr rfl (fun hc => ?_) fun _ => ?_
    · exact readList_crlf rfl hbreak hplain hnext
    rw [apply_ite (Except.map LineTokens.crlf), ← crlfChars_cons hbreak,
      isPrefixOf_crlfChars (by decide) (by decide)]
    refine ite_congr rfl (fun hc => ?_) fun _ => ?_
    · -- Attributes that are spread.
      obtain ⟨behind, hbehind⟩ := List.isPrefixOf_iff_prefix.1 (Bool.and_eq_true_iff.1 hc).2
      obtain ⟨-, hcs⟩ : '&' = c ∧ "attributes(".toList ++ behind = cs := List.cons.inj hbehind
      have hdrop : cs.drop ("&attributes(".toList.length - 1) = behind := by
        rw [← hcs]
        rfl
      have hdrop' : (crlfChars cs).drop ("&attributes(".toList.length - 1) = crlfChars behind := by
        rw [← hcs]
        rfl
      rw [hdrop, hdrop']
      exact readSpread_crlf hbehind.symm (by decide) (by decide) hnext
    rw [apply_ite (Except.map LineTokens.crlf), any_head?_crlfChars rfl]
    refine ite_congr rfl (fun hc => ?_) fun _ => ?_
    · -- A colon, with an element behind its blanks.
      have hsplit : c :: cs = c :: cs.takeWhile isInlineBlank ++ cs.dropWhile isInlineBlank := by
        rw [List.cons_append, List.takeWhile_append_dropWhile]
      rw [map_prepending_crlf, takeWhile_crlfChars rfl, dropWhile_crlfChars rfl,
        ← crlfChars_cons hbreak, Cursor.crlf_advance, hnext hsplit (List.cons_ne_nil _ _),
        Cursor.crlf_token_head hbreak rfl]
      rfl
    rw [apply_ite (Except.map LineTokens.crlf), isLineEnd_crlfChars hplain]
    refine ite_congr rfl (fun hc => ?_) fun _ => ?_
    · have hsplit : c :: cs = [c] ++ cs := rfl
      rw [map_prepending_crlf, Cursor.crlf_advance_head hbreak, Cursor.crlf_token_head hbreak rfl,
        hnext hsplit (List.cons_ne_nil _ _)]
      rfl
    rw [apply_ite (Except.map LineTokens.crlf)]
    refine ite_congr rfl (fun hc => congrArg Except.ok (readCode_crlf h 1 true)) fun _ => ?_
    rw [apply_ite (Except.map LineTokens.crlf), head?_crlfChars_beq (by decide) (by decide)]
    refine ite_congr rfl (fun hc => congrArg Except.ok (readCode_crlf h 2 true)) fun _ => ?_
    rw [apply_ite (Except.map LineTokens.crlf)]
    refine ite_congr rfl (fun hc => ?_) fun _ => ?_
    · -- A blank, with or without a text behind it.
      have hline := newline_not_mem_splitLine cs
      rw [splitLine_crlfChars hplain, apply_ite (Except.map LineTokens.crlf)]
      refine ite_congr rfl (fun hc => ?_) fun _ => ?_
      · have htaken : c :: (splitLine cs).1 = crlfChars (c :: (splitLine cs).1) := by
          rw [crlfChars_cons hbreak, crlfChars_of_notMem hline]
        rw [htaken, Cursor.crlf_advance, ← htaken]
        rfl
      · rw [Cursor.crlf_advance_head hbreak, readText_crlf hplain]
        rfl
    rw [apply_ite (Except.map LineTokens.crlf)]
    refine ite_congr rfl (fun hc => congrArg Except.ok (readText_crlf h)) fun _ => ?_
    exact congrArg Except.error (unexpected_crlf h)

/-! ### Lines -/

/-- The texts of a document type or a control line stand on the line. -/
theorem mapTexts_of_keywordLine? {line : List Char} {kind : TokenKind} (hline : '\n' ∉ line)
    (h : keywordLine? line = some kind) : kind.mapTexts Text.crlf = kind := by
  have htrim {cs : List Char} (hcs : '\n' ∉ cs) :
      Text.crlf (String.ofList (trim cs)) = String.ofList (trim cs) :=
    crlf_ofList_of_notMem fun hm => hcs (mem_of_mem_trim hm)
  have hbehind : '\n' ∉ line.dropWhile Char.isLower := fun hm =>
    hline ((List.dropWhile_suffix _).mem hm)
  simp only [keywordLine?] at h
  split at h
  · split at h
    · cases h
      rw [TokenKind.mapTexts, htrim hbehind]
    · obtain ⟨keyword, -, rfl⟩ := Option.map_eq_some_iff.1 h
      split
      · rename_i condition hcondition
        have hnot : '\n' ∉ condition := fun hm => hbehind (mem_of_mem_trim (by
          rw [hcondition]
          exact List.mem_cons_of_mem _ (List.mem_cons_of_mem _ hm)))
        split
        · rw [TokenKind.mapTexts, htrim hnot]
        · rw [TokenKind.mapTexts, htrim hbehind]
      · rw [TokenKind.mapTexts, htrim hbehind]
  · cases h

/-- A line that is one token with its text. -/
theorem readWhole_crlf {cursor : Cursor} (h : '\r' ∉ cursor.rest) {kind : List Char → TokenKind}
    (hkind : ∀ line, '\n' ∉ line → (kind line).mapTexts Text.crlf = kind line)
    (opensBlock : Bool) :
    lastToken cursor.crlf (kind (splitLine cursor.crlf.rest).1) (splitLine cursor.crlf.rest).1
        (splitLine cursor.crlf.rest).2 opensBlock =
      (lastToken cursor (kind (splitLine cursor.rest).1) (splitLine cursor.rest).1
        (splitLine cursor.rest).2 opensBlock).crlf := by
  have hline := newline_not_mem_splitLine cursor.rest
  have hsplit : splitLine cursor.crlf.rest = _ := splitLine_crlfChars h
  rw [hsplit]
  exact lastToken_crlf (hkind _ hline) hline _ _ _

theorem Turns.whole (cs : List Char) : Turns (cs.length + 1) ((crlfChars cs).length + 1) cs :=
  ⟨Nat.lt_succ_self _, Nat.lt_succ_self _⟩

/-- The use of a mixin. -/
theorem readCall_crlf {place : Position} {cs : List Char} (h : '\r' ∉ cs) :
    readLine (Cursor.crlf ⟨place, '+' :: cs⟩) =
      (readLine ⟨place, '+' :: cs⟩).map LineTokens.crlf := by
  have hname : '\n' ∉ cs.takeWhile isLiteralChar := fun hm =>
    absurd (List.mem_takeWhile_imp hm) (by decide)
  have hrest : '\r' ∉ cs.dropWhile isLiteralChar := fun hm => h ((List.dropWhile_suffix _).mem hm)
  have hplus : Cursor.crlf ⟨place, '+' :: cs⟩ = ⟨place, '+' :: crlfChars cs⟩ := rfl
  have hread (cs : List Char) : readLine ⟨place, '+' :: cs⟩ =
      if (cs.takeWhile isLiteralChar).isEmpty then .error (unexpected ⟨place, '+' :: cs⟩)
      else (readElement ((cs.dropWhile isLiteralChar).length + 1) true
        ⟨place.after ('+' :: cs.takeWhile isLiteralChar), cs.dropWhile isLiteralChar⟩).map
          (.prepending [Cursor.token ⟨place, '+' :: cs⟩
            (.call (String.ofList (cs.takeWhile isLiteralChar)))
            ('+' :: cs.takeWhile isLiteralChar)]) := rfl
  rw [hplus, hread, hread, takeWhile_crlfChars rfl, dropWhile_crlfChars rfl,
    crlfChars_of_notMem hname, apply_ite (Except.map LineTokens.crlf)]
  refine ite_congr rfl (fun _ => ?_) fun _ => ?_
  · exact congrArg Except.error (@unexpected_crlf ⟨place, '+' :: cs⟩ (by simpa using h))
  · have helement := @readElement_crlf _ _ true
      ⟨place.after ('+' :: cs.takeWhile isLiteralChar), cs.dropWhile isLiteralChar⟩
      (Turns.whole _) hrest
    rw [Cursor.crlf] at helement
    rw [helement, map_prepending_crlf, List.map_singleton, ← Cursor.crlf_token,
      TokenKind.mapTexts, crlf_ofList_of_notMem hname, crlfChars_cons (by decide),
      crlfChars_of_notMem hname]
    rfl

theorem readLine_crlf {cursor : Cursor} (h : '\r' ∉ cursor.rest) :
    readLine cursor.crlf = (readLine cursor).map LineTokens.crlf := by
  obtain ⟨place, rest⟩ := cursor
  have hline := newline_not_mem_splitLine rest
  have hcommented (n : Nat) (buffered : Bool) (line : List Char) (hline : '\n' ∉ line) :
      TokenKind.mapTexts Text.crlf (.comment (String.ofList (line.drop n)) buffered) =
        .comment (String.ofList (line.drop n)) buffered := by
    rw [TokenKind.mapTexts, crlf_ofList_of_notMem fun hm => hline (List.mem_of_mem_drop hm)]
  have hsplit : splitLine (crlfChars rest) = _ := splitLine_crlfChars h
  rcases rest with _ | ⟨c, cs⟩
  · rfl
  have hplain := List.not_mem_of_not_mem_cons h
  -- A mark in front of the line tells what it is.
  by_cases hmark : c ∈ ['|', '<', '-', '=', '+']
  · simp only [List.mem_cons, List.not_mem_nil, or_false] at hmark
    rcases hmark with rfl | rfl | rfl | rfl | rfl
    · by_cases hblank : cs.head? = some ' '
      · obtain ⟨ds, rfl⟩ := List.head?_eq_some_iff.1 hblank
        exact congrArg Except.ok
          (@readText_crlf ⟨place.after ['|', ' '], ds⟩ (List.not_mem_of_not_mem_cons hplain))
      · have hblank' : (crlfChars cs).head? ≠ some ' ' := by
          rwa [ne_eq, head?_crlfChars_eq (by decide) (by decide)]
        rw [Cursor.crlf, crlfChars_cons (by decide), readLine_bar hblank', readLine_bar hblank]
        exact congrArg Except.ok (@readText_crlf ⟨place.after ['|'], cs⟩ hplain)
    · refine congrArg Except.ok (@readWhole_crlf ⟨place, '<' :: cs⟩ h
        (fun line => .html (String.ofList line)) (fun line hline => ?_) false)
      rw [TokenKind.mapTexts, crlf_ofList_of_notMem hline]
    · exact congrArg Except.ok (@readCode_crlf ⟨place, '-' :: cs⟩ h 1 false)
    · exact congrArg Except.ok (@readCode_crlf ⟨place, '=' :: cs⟩ h 1 true)
    · exact readCall_crlf hplain
  by_cases hcomment : ['/', '/'] <+: c :: cs
  · obtain ⟨ds, hds⟩ := hcomment
    obtain ⟨rfl, rfl⟩ : '/' = c ∧ '/' :: ds = cs := List.cons.inj hds
    by_cases hdash : ds.head? = some '-'
    · obtain ⟨es, rfl⟩ := List.head?_eq_some_iff.1 hdash
      exact congrArg Except.ok (@readWhole_crlf ⟨place, '/' :: '/' :: '-' :: es⟩ h
        (fun line => .comment (String.ofList (line.drop 3)) false) (hcommented 3 false) true)
    · have hdash' : (crlfChars ds).head? ≠ some '-' := by
        rwa [ne_eq, head?_crlfChars_eq (by decide) (by decide)]
      rw [Cursor.crlf, crlfChars_cons (by decide), crlfChars_cons (by decide),
        readLine_comment hdash' rfl, readLine_comment hdash rfl]
      exact congrArg Except.ok (@readWhole_crlf ⟨place, '/' :: '/' :: ds⟩ h
        (fun line => .comment (String.ofList (line.drop 2)) true) (hcommented 2 true) true)
  by_cases hcode : ['!', '='] <+: c :: cs
  · obtain ⟨ds, hds⟩ := hcode
    obtain ⟨rfl, rfl⟩ : '!' = c ∧ '=' :: ds = cs := List.cons.inj hds
    exact congrArg Except.ok (@readCode_crlf ⟨place, '!' :: '=' :: ds⟩ h 2 true)
  -- Without a mark, both texts start with a keyword or with an element.
  have hhead : ∀ d ∈ (c :: cs).head?, d ∉ ['|', '<', '-', '=', '+'] := by
    rintro d ⟨⟩
    exact hmark
  have hne' : crlfChars (c :: cs) ≠ [] := by
    rw [ne_eq, ← List.isEmpty_iff, isEmpty_crlfChars]
    exact Bool.false_ne_true
  have hhead' : ∀ d ∈ (crlfChars (c :: cs)).head?, d ∉ ['|', '<', '-', '=', '+'] := by
    intro d hd hm
    have hne : d ≠ '\n' ∧ d ≠ '\r' := by
      constructor <;> (rintro rfl; exact absurd hm (by decide))
    exact hhead d ((head?_crlfChars_eq hne.1 hne.2).1 hd) hm
  have hstarts {marker : List Char} (hn : '\n' ∉ marker) (hr : '\r' ∉ marker)
      (hnot : ¬marker <+: c :: cs) : ¬marker <+: crlfChars (c :: cs) := by
    rw [← List.isPrefixOf_iff_prefix] at hnot ⊢
    rwa [isPrefixOf_crlfChars hn hr]
  rw [Cursor.crlf, readLine_eq hne' hhead' (hstarts (by decide) (by decide) hcomment)
      (hstarts (by decide) (by decide) hcode),
    readLine_eq (List.cons_ne_nil _ _) hhead hcomment hcode, hsplit]
  cases hword : keywordLine? (splitLine (c :: cs)).1 with
  | some kind =>
    exact congrArg Except.ok
      (@lastToken_crlf _ _ (mapTexts_of_keywordLine? hline hword) hline ⟨place, c :: cs⟩ _ _)
  | none => exact readElement_crlf (Turns.whole _) h

/-- Behind the next line with content there are fewer characters. -/
theorem turns_nextLine {cursor : Cursor} {line : Nat} {indentation content taken rest : List Char}
    (hturns : Turns (fuel + 1) (fuel' + 1) cursor.rest) (hend : isLineEnd cursor.rest = true)
    (hnext : nextLine cursor = (line, indentation, content)) (hcontent : content ≠ [])
    (hrest : indentation ++ content = taken ++ rest) : Turns fuel fuel' rest := by
  obtain ⟨lines, hlines, -, hne, -⟩ :=
    ahead_nextLine hnext hend (rest_ne_nil_of_nextLine hnext hcontent)
  have hsplit : cursor.rest = lines ++ taken ++ rest := by
    rw [hlines, hrest, List.append_assoc]
  exact hturns.pass hsplit (List.append_ne_nil_of_left_ne_nil hne _)

/-- The next line with content is without carriage returns. -/
theorem return_notMem_nextLine {cursor : Cursor} {line : Nat} {indentation content : List Char}
    (h : '\r' ∉ cursor.rest) (hnext : nextLine cursor = (line, indentation, content)) :
    '\r' ∉ indentation ++ content := by
  obtain ⟨lines, hlines, -⟩ := exists_ahead hnext
  rw [hlines] at h
  exact fun hm => h (List.mem_append_right _ hm)

/-- The lines of a block of raw text are read in the same way. -/
theorem readRawLines_crlf {parent : Nat} {base : Option Nat} {cursor : Cursor}
    (hturns : Turns fuel fuel' cursor.rest) (h : '\r' ∉ cursor.rest)
    (hend : isLineEnd cursor.rest = true) :
    readRawLines parent fuel' base cursor.crlf =
      (readRawLines parent fuel base cursor).map (List.map Token.crlf) Cursor.crlf := by
  induction fuel generalizing fuel' base cursor with
  | zero => exact absurd hturns.plain (Nat.not_lt_zero _)
  | succ fuel ih =>
    obtain ⟨turns, turns', -, rfl⟩ := hturns.exists_succ
    obtain ⟨⟨line, indentation, content⟩, hnext⟩ : ∃ found, nextLine cursor = found := ⟨_, rfl⟩
    obtain ⟨lines, hlines, hahead⟩ := exists_ahead hnext
    have hblank : '\n' ∉ indentation := newline_not_mem_of_blank hahead.blank
    have hplain := return_notMem_nextLine h hnext
    unfold readRawLines
    dsimp only
    rw [nextLine_crlf h, hnext]
    dsimp only
    rw [isEmpty_crlfChars, apply_ite (Prod.map (List.map Token.crlf) Cursor.crlf)]
    refine ite_congr rfl (fun hstop => ?_) fun hdeeper => ?_
    · cases base <;> rfl
    · rw [Bool.or_eq_true, List.isEmpty_iff, not_or] at hdeeper
      obtain ⟨column, hcolumn⟩ :
          ∃ column, min indentation.length (base.getD indentation.length) = column := ⟨_, rfl⟩
      rw [hcolumn]
      generalize hhere : (⟨(⟨line, 1⟩ : Position).after (indentation.take column),
        indentation.drop column ++ content⟩ : Cursor) = here
      have hsplit : indentation ++ content = indentation.take column ++ here.rest := by
        rw [← hhere, ← List.append_assoc, List.take_append_drop]
      have hhere' : (⟨(⟨line, 1⟩ : Position).after (indentation.take column),
          indentation.drop column ++ crlfChars content⟩ : Cursor) = here.crlf := by
        rw [← hhere, Cursor.crlf, crlfChars_append,
          crlfChars_of_notMem fun hm => hblank (List.mem_of_mem_drop hm)]
      have hhereplain : '\r' ∉ here.rest := by
        rw [hsplit] at hplain
        exact fun hm => hplain (List.mem_append_right _ hm)
      have htext := readText_crlf hhereplain
      have hline : indentation ++ content =
          indentation.take column ++ (splitLine here.rest).1 ++ (splitLine here.rest).2 := by
        rw [hsplit, List.append_assoc, splitLine_append]
      have hothers := @ih turns' (some (base.getD column)) (readText here).cursor
        (turns_nextLine hturns hend hnext hdeeper.1 hline)
        (by rw [hline] at hplain; exact fun hm => hplain (List.mem_append_right _ hm))
        (isLineEnd_splitLine here.rest)
      dsimp only [Cursor.advance]
      rw [hhere', hhere, htext]
      have hcursor : (readText here).crlf.cursor = (readText here).cursor.crlf := rfl
      rw [hcursor, hothers]
      cases base <;>
        simp [LineTokens.crlf, Cursor.crlf, Token.crlf, Cursor.token, TokenKind.mapTexts]

/-- The end of a template carries no texts. -/
theorem finish_crlf (levels : List Nat) (cursor : Cursor) :
    finish levels cursor.crlf = (finish levels cursor).map Token.crlf := by
  simp [finish, Cursor.token, Token.crlf, TokenKind.mapTexts]

/-- The tokens of an indentation carry no texts. -/
theorem crlf_readIndentation {levels levels' : List Nat} {line : Nat} {indentation : List Char}
    {tokens : List Token}
    (h : readIndentation levels line indentation = .ok (tokens, levels')) :
    tokens.map Token.crlf = tokens := by
  obtain ⟨kinds, hkinds, rfl⟩ := indents_readIndentation h
  rw [List.map_map]
  refine List.map_congr_left fun kind hkind => ?_
  have hkind : kind.mapTexts Text.crlf = kind := by
    cases hkinds with
    | deeper =>
      obtain rfl := List.mem_singleton.1 hkind
      rfl
    | same =>
      obtain rfl := List.mem_singleton.1 hkind
      rfl
    | outer =>
      obtain rfl := List.eq_of_mem_replicate hkind
      rfl
  rw [Function.comp_apply, Token.crlf, hkind]

theorem readLines_crlf {levels : List Nat} {opensBlock : Bool} {cursor : Cursor}
    (hturns : Turns fuel fuel' cursor.rest) (h : '\r' ∉ cursor.rest)
    (hend : isLineEnd cursor.rest = true) :
    readLines fuel' levels opensBlock cursor.crlf =
      (readLines fuel levels opensBlock cursor).map (List.map Token.crlf) := by
  induction fuel generalizing fuel' levels opensBlock cursor with
  | zero => exact absurd hturns.plain (Nat.not_lt_zero _)
  | succ fuel ih =>
    obtain ⟨turns, turns', -, rfl⟩ := hturns.exists_succ
    obtain ⟨⟨raw, middle⟩, hraw⟩ : ∃ found, (if opensBlock then
        readRawLines (levels.headD 0) (cursor.rest.length + 1) none cursor
      else ([], cursor)) = found := ⟨_, rfl⟩
    -- A block of raw text in front of the next line is read alike.
    have hraw' : (if opensBlock then
        readRawLines (levels.headD 0) (cursor.crlf.rest.length + 1) none cursor.crlf
      else ([], cursor.crlf)) = (raw.map Token.crlf, middle.crlf) := by
      split at hraw
      · rename_i hopens
        rw [if_pos hopens, Cursor.crlf_rest, readRawLines_crlf (Turns.whole _) h hend, hraw]
        rfl
      · rename_i hopens
        cases hraw
        rw [if_neg hopens]
        rfl
    have hreads : Reads cursor raw middle ∧ isLineEnd middle.rest = true := by
      split at hraw
      · exact reads_readRawLines hraw hend (Nat.lt_succ_self _)
      · cases hraw
        exact ⟨.refl cursor, hend⟩
    obtain ⟨⟨taken, htaken, -⟩, hmiddle⟩ := hreads
    have hplain : '\r' ∉ middle.rest := fun hm => h (htaken ▸ List.mem_append_right _ hm)
    obtain ⟨⟨line, indentation, content⟩, hnext⟩ : ∃ found, nextLine middle = found := ⟨_, rfl⟩
    rw [readLines, readLines, hraw, hraw']
    dsimp only
    rw [nextLine_crlf hplain, hnext]
    dsimp only
    have hstart : (⟨⟨line, 1⟩, indentation ++ crlfChars content⟩ : Cursor).advance indentation
        (crlfChars content) = Cursor.crlf ((⟨⟨line, 1⟩, indentation ++ content⟩ : Cursor).advance
          indentation content) := rfl
    rw [Cursor.crlf_rest, isEmpty_crlfChars, isEmpty_crlfChars, hstart,
      apply_ite (Except.map (List.map Token.crlf))]
    generalize hhere : (⟨⟨line, 1⟩, indentation ++ content⟩ : Cursor).advance indentation content =
      here
    refine ite_congr rfl (fun _ => ?_) fun hne => ?_
    · rw [Except.map, List.map_append, finish_crlf]
    rw [apply_ite (Except.map (List.map Token.crlf))]
    refine ite_congr rfl (fun _ => ?_) fun hcontent => ?_
    · rw [Except.map, List.map_append, finish_crlf]
    have hrest : here.rest = content := by
      rw [← hhere]
      rfl
    have hread := @readLine_crlf here (by
      rw [hrest]
      exact fun hm => return_notMem_nextLine hplain hnext (List.mem_append_right _ hm))
    -- The indentation holds no line break, so that the levels are the same.
    cases hdepth : readIndentation levels line indentation with
    | error e => rfl
    | ok found =>
      obtain ⟨depth, levels'⟩ := found
      simp only [bind, Except.bind]
      rw [hread]
      cases hbody : readLine here with
      | error e => rfl
      | ok body =>
        obtain ⟨⟨line', hline', -, -⟩, hbodyend⟩ := readsLine_readLine hbody
        have hsplit : indentation ++ content = indentation ++ line' ++ body.cursor.rest := by
          rw [← hrest, hline', List.append_assoc]
        have hothers := @ih turns' levels' body.opensBlock body.cursor
          (turns_nextLine (hturns.skip htaken) hmiddle hnext (by simpa using hcontent) hsplit)
          (by
            have hm := return_notMem_nextLine hplain hnext
            rw [hsplit] at hm
            exact fun hr => hm (List.mem_append_right _ hr))
          hbodyend
        simp only [Except.map, LineTokens.crlf_cursor, LineTokens.crlf_opensBlock, hothers]
        cases readLines fuel levels' body.opensBlock body.cursor with
        | error e => rfl
        | ok others =>
          simp [crlf_readIndentation hdepth, pure, Except.pure]

theorem firstContent_of_head?_ne {text : List Char} (h : text.head? ≠ some '\ufeff') :
    firstContent text = (⟨.first, text⟩ : Cursor).advance (text.takeWhile isInlineBlank)
      (text.dropWhile isInlineBlank) := by
  unfold firstContent
  split
  · exact absurd rfl h
  · rfl

/-- The first line starts at the same place. -/
theorem firstContent_crlf (text : List Char) :
    firstContent (crlfChars text) = (firstContent text).crlf := by
  have hskip (cursor : Cursor) :
      cursor.crlf.advance (cursor.crlf.rest.takeWhile isInlineBlank)
          (cursor.crlf.rest.dropWhile isInlineBlank) =
        (cursor.advance (cursor.rest.takeWhile isInlineBlank)
          (cursor.rest.dropWhile isInlineBlank)).crlf := by
    rw [← Cursor.crlf_advance, ← takeWhile_crlfChars rfl, ← dropWhile_crlfChars rfl]
    rfl
  by_cases hmark : text.head? = some '\ufeff'
  · obtain ⟨text, rfl⟩ := List.head?_eq_some_iff.1 hmark
    exact hskip ((⟨.first, '\ufeff' :: text⟩ : Cursor).advance ['\ufeff'] text)
  · have hmark' : (crlfChars text).head? ≠ some '\ufeff' := by
      rwa [ne_eq, head?_crlfChars_eq (by decide) (by decide)]
    rw [firstContent_of_head?_ne hmark, firstContent_of_head?_ne hmark']
    exact hskip ⟨.first, text⟩

theorem read_crlf {text : List Char} (h : '\r' ∉ text) :
    read (crlfChars text) = (read text).map (List.map Token.crlf) := by
  obtain ⟨taken, htaken, -, -⟩ := reads_firstContent text
  dsimp only at htaken
  have hplain : '\r' ∉ (firstContent text).rest := fun hm =>
    h (htaken ▸ List.mem_append_right _ hm)
  have hend : isLineEnd (firstContent text).crlf.rest = _ := isLineEnd_crlfChars hplain
  -- From the end of the first line on.
  have hothers (line : LineTokens) (hline : ReadsLine (firstContent text) line) :
      (do
        let others ← readLines ((crlfChars text).length + 1) [] line.crlf.opensBlock
          line.crlf.cursor
        return line.crlf.tokens ++ others) =
      Except.map (List.map Token.crlf) (do
        let others ← readLines (text.length + 1) [] line.opensBlock line.cursor
        return line.tokens ++ others) := by
    obtain ⟨⟨first, hfirst, -, -⟩, hend⟩ := hline
    have hsplit : text = taken ++ first ++ line.cursor.rest := by
      rw [List.append_assoc, ← hfirst, ← htaken]
    have hread := @readLines_crlf (text.length + 1) ((crlfChars text).length + 1) []
      line.opensBlock line.cursor ((Turns.whole text).skip hsplit)
      (fun hm => h (hsplit ▸ List.mem_append_right _ hm)) hend
    simp only [LineTokens.crlf_cursor, LineTokens.crlf_opensBlock, hread]
    cases readLines (text.length + 1) [] line.opensBlock line.cursor with
    | error e => rfl
    | ok others => exact congrArg Except.ok List.map_append.symm
  rw [read, read, firstContent_crlf, hend]
  dsimp only
  rw [apply_ite (Except.map (List.map Token.crlf))]
  refine ite_congr rfl (fun hend => ?_) fun _ => ?_
  · exact hothers ⟨[], firstContent text, false⟩ ⟨.refl _, hend⟩
  · rw [readLine_crlf hplain]
    cases hline : readLine (firstContent text) with
    | error e => rfl
    | ok line => exact hothers line (readsLine_readLine hline)

end Lexer

/-- Line endings do not matter: with a carriage return in front of every line feed a text has
    the same tokens at the same places, each with its texts changed in the same way, or the
    same fault. -/
theorem tokenize_crlf {template : String} (h : '\r' ∉ template.toList) :
    tokenize (Text.crlf template) = (tokenize template).map (List.map Token.crlf) := by
  rw [tokenize, Text.crlf, String.toList_ofList]
  exact Lexer.read_crlf h

/-- A list of attributes over two lines, with a string over two lines in it. -/
theorem tokenize_crlf_wrapped :
    tokenize (Text.crlf "p(a='\\\n'\n b)\n  | c") =
      .ok [⟨.tag "p", ⟨1, 1⟩, ⟨1, 2⟩⟩, ⟨.startAttributes, ⟨1, 2⟩, ⟨1, 3⟩⟩,
        ⟨.attribute "a" (some "'\\\r\n'") true, ⟨1, 3⟩, ⟨2, 2⟩⟩,
        ⟨.attribute "b" none true, ⟨3, 2⟩, ⟨3, 3⟩⟩, ⟨.endAttributes, ⟨3, 3⟩, ⟨3, 4⟩⟩,
        ⟨.indent 2, ⟨4, 1⟩, ⟨4, 3⟩⟩, ⟨.text "c", ⟨4, 5⟩, ⟨4, 6⟩⟩, ⟨.outdent, ⟨4, 6⟩, ⟨4, 6⟩⟩,
        ⟨.eos, ⟨4, 6⟩, ⟨4, 6⟩⟩] :=
  (tokenize_crlf (by decide)).trans (by decide +kernel)

end PugLint
