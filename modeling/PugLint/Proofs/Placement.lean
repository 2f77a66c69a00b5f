import PugLint.Placement
import PugLint.Proofs.Token.Reading

/-!
# Tokens in the document

The tokens of a template that could be read are placed in the document without
any repair: every one of them has a place in the template, none starts before
the token in front of it, and the document has the token as written there.

* `Placement.Straight`: neither of the two repairs is made on the way;
* `placeTokens_tokenize`: ranges, lines and texts of the tokens of a template,
  wherever it stands in a document.
-/

namespace PugLint

open Text

/-- The tokens of a template, placed behind one that starts at `cursor`, need no
    repair: each of them has a range in the template, and none starts before the
    one in front of it. -/
def Placement.Straight (index : LineIndex) (offset cursor : Nat) : List Token → Prop
  | [] => True
  | token :: tokens =>
    ∃ start stop, resolve? index token.span = some (start, stop) ∧ cursor ≤ offset + start ∧
      Straight index offset (offset + start) tokens

/-- A token is where the document has it: its range lies between two bytes, its
    lines are those of the range, and the text there is the token as written. -/
structure PlacedToken.InPlace (document : List Char) (first last : Nat) (token : PlacedToken) :
    Prop where
  first_le : first ≤ token.start
  start_le_stop : token.start ≤ token.stop
  stop_le : token.stop ≤ last
  line_eq : token.line = ((LineIndex.ofText document).position token.start).1
  stopLine_eq : token.stopLine = ((LineIndex.ofText document).position token.stop).1
  written : ∃ written, slice? document token.start token.stop = some written ∧
    token.kind.Written written

namespace Placement

/-- The range of a token that stands behind a prefix of the template. -/
theorem resolve?_after (before written behind : List Char) :
    resolve? (LineIndex.ofText (before ++ (written ++ behind)))
        ⟨Position.first.after before, Position.first.after (before ++ written)⟩ =
      some (byteLength before, byteLength before + byteLength written) := by
  have hstart := LineIndex.offset?_after before (written ++ behind)
  have hstop := LineIndex.offset?_after (before ++ written) behind
  rw [List.append_assoc, byteLength_append] at hstop
  simp only [resolve?, hstart, hstop]
  rw [if_pos (Nat.le_add_right _ _)]

/-- A token that has a range behind the cursor is placed there. -/
theorem placeAfter_of_resolve? {index : LineIndex} {offset line cursor start stop : Nat}
    {token : Token} (hr : resolve? index token.span = some (start, stop))
    (hc : cursor ≤ offset + start) :
    placeAfter index offset line cursor token =
      ⟨token.kind, offset + start, offset + stop, line + (token.span.start.line - 1),
        line + (token.span.stop.line - 1)⟩ := by
  simp only [placeAfter, hr]
  rw [Nat.max_eq_left hc, if_neg (Nat.not_lt.2 hc)]

/-- The line in the document of the place behind a prefix of the template. -/
theorem position_document (before front rest behind : List Char) :
    ((LineIndex.ofText (before ++ (front ++ rest) ++ behind)).position
        (byteLength before + byteLength front)).1 =
      1 + before.count '\n' + ((Position.first.after front).line - 1) := by
  have h := LineIndex.position_append (before ++ front) (rest ++ behind)
  have hdocument : before ++ front ++ (rest ++ behind) = before ++ (front ++ rest) ++ behind := by
    simp only [List.append_assoc]
  rw [hdocument, byteLength_append] at h
  rw [h, Position.line_after, Position.line_after, List.count_append]
  simp only [Position.first]
  omega

/-- A token over a piece of the template is in place at the range of that piece
    in the document. -/
theorem inPlace_of_written {kind : TokenKind} (before front rest behind : List Char)
    {written : List Char} (hw : kind.Written written) :
    PlacedToken.InPlace (before ++ (front ++ (written ++ rest)) ++ behind) (byteLength before)
      (byteLength before + byteLength (front ++ (written ++ rest)))
      ⟨kind, byteLength before + byteLength front,
        byteLength before + (byteLength front + byteLength written),
        1 + before.count '\n' + ((Position.first.after front).line - 1),
        1 + before.count '\n' + ((Position.first.after (front ++ written)).line - 1)⟩ where
  first_le := Nat.le_add_right _ _
  start_le_stop := by
    simp only
    omega
  stop_le := by
    simp only [byteLength_append]
    omega
  line_eq := (position_document before front (written ++ rest) behind).symm
  stopLine_eq := by
    have h := position_document before (front ++ written) rest behind
    rw [List.append_assoc front, byteLength_append] at h
    exact h.symm
  written := by
    have h := slice?_append (before ++ front) written (rest ++ behind)
    have hdocument : before ++ front ++ (written ++ (rest ++ behind)) =
        before ++ (front ++ (written ++ rest)) ++ behind := by simp only [List.append_assoc]
    rw [hdocument, byteLength_append, Nat.add_assoc] at h
    exact ⟨written, h, hw⟩

variable {before passed text behind : List Char} {tokens : List Token}

/-- The tokens that stand on a text behind some of the template are placed in the
    document without repair. -/
theorem placeFrom_of_laid {template : List Char} {cursor : Nat}
    (h : Laid (Position.first.after passed) text tokens) (ht : template = passed ++ text)
    (hc : cursor ≤ byteLength before + byteLength passed) :
    Straight (LineIndex.ofText template) (byteLength before) cursor tokens ∧
      ∀ token ∈ placeFrom (LineIndex.ofText template) (byteLength before)
          (1 + before.count '\n') cursor tokens,
        token.InPlace (before ++ template ++ behind) (byteLength before)
          (byteLength before + byteLength template) := by
  generalize hp : Position.first.after passed = place at h
  -- Induction over the tokens, the template passed so far growing with them.
  induction h generalizing passed cursor with
  | nil => exact ⟨trivial, fun _ hm => absurd hm List.not_mem_nil⟩
  | @cons place skipped written rest kind tokens hw _ ih =>
    subst hp
    obtain ⟨front, hfront⟩ : ∃ front, passed ++ skipped = front := ⟨_, rfl⟩
    have hplace : (Position.first.after passed).after skipped = Position.first.after front := by
      rw [← Position.after_append, hfront]
    have hcursor : cursor ≤ byteLength before + byteLength front := by
      rw [← hfront, byteLength_append]
      omega
    rw [← List.append_assoc passed, hfront] at ht
    have hr := resolve?_after front written rest
    rw [← ht] at hr
    rw [hplace, ← Position.after_append, ← List.append_assoc passed, hfront]
    obtain ⟨hstraight, hplaced⟩ := ih ht (Nat.le_refl _) hplace.symm
    refine ⟨⟨_, _, hr, hcursor, hstraight⟩, fun token hm => ?_⟩
    rw [placeFrom, placeAfter_of_resolve? hr hcursor] at hm
    rcases List.mem_cons.1 hm with rfl | hm
    · rw [ht]
      exact inPlace_of_written before front rest behind hw
    · exact hplaced token hm

theorem map_kind_placeFrom (index : LineIndex) (offset line cursor : Nat) (tokens : List Token) :
    (placeFrom index offset line cursor tokens).map PlacedToken.kind = tokens.map Token.kind := by
  induction tokens generalizing cursor with
  | nil => rfl
  | cons token tokens ih =>
    rw [placeFrom, List.map_cons, List.map_cons, ih]
    rfl

end Placement

/-- The tokens of a template are the same ones when they are placed. -/
theorem map_kind_placeTokens (tokens : List Token) (template : List Char) (offset line : Nat) :
    (placeTokens tokens template offset line).map PlacedToken.kind = tokens.map Token.kind :=
  Placement.map_kind_placeFrom _ _ _ _ _

/-- The tokens of a template that can be read are placed without repair, and each is in place. -/
theorem Placement.straight_and_inPlace {template : String} {tokens : List Token}
    (h : tokenize template = .ok tokens) (before behind : List Char) :
    Straight (LineIndex.ofText template.toList) (byteLength before) (byteLength before) tokens ∧
      ∀ token ∈ placeTokens tokens template.toList (byteLength before) (1 + before.count '\n'),
        token.InPlace (before ++ template.toList ++ behind) (byteLength before)
          (byteLength before + byteLength template.toList) := by
  have hlaid : Laid (Position.first.after []) template.toList tokens := laid_of_tokenize h
  exact placeFrom_of_laid hlaid (List.nil_append _).symm (Nat.le_refl _)

/-- A template that can be read is placed in any document around it without
    repair, and the document has every token, as written, at its range and on its
    lines. -/
theorem placeTokens_tokenize {template : String} {tokens : List Token}
    (h : tokenize template = .ok tokens) (before behind : List Char) :
    Placement.Straight (LineIndex.ofText template.toList) (byteLength before)
        (byteLength before) tokens ∧
      (placeTokens tokens template.toList (byteLength before)
        (1 + before.count '\n')).map PlacedToken.kind = tokens.map Token.kind ∧
      ∀ token ∈ placeTokens tokens template.toList (byteLength before) (1 + before.count '\n'),
        token.InPlace (before ++ template.toList ++ behind) (byteLength before)
          (byteLength before + byteLength template.toList) := by
  obtain ⟨hstraight, hplaced⟩ := Placement.straight_and_inPlace h before behind
  exact ⟨hstraight, map_kind_placeTokens _ _ _ _, hplaced⟩

/-- The tokens of a template with a carriage return, a wrapped list of attributes
    and a character of two bytes. -/
def wrappedTokens : List Token :=
  [⟨.tag "ul", ⟨1, 1⟩, ⟨1, 3⟩⟩, ⟨.indent 2, ⟨2, 1⟩, ⟨2, 3⟩⟩, ⟨.tag "li", ⟨2, 3⟩, ⟨2, 5⟩⟩,
    ⟨.startAttributes, ⟨2, 5⟩, ⟨2, 6⟩⟩, ⟨.attribute ":a" (some "'é'") true, ⟨3, 1⟩, ⟨3, 8⟩⟩,
    ⟨.endAttributes, ⟨4, 1⟩, ⟨4, 2⟩⟩, ⟨.outdent, ⟨4, 2⟩, ⟨4, 2⟩⟩, ⟨.eos, ⟨4, 2⟩, ⟨4, 2⟩⟩]

theorem tokenize_wrapped : tokenize "ul\r\n  li(\n:a='é'\n)" = .ok wrappedTokens := by
  decide +kernel

/-- That template behind a start tag on a line of its own. -/
theorem placeTokens_tokenize_wrapped :
    tokenize "ul\r\n  li(\n:a='é'\n)" = .ok wrappedTokens ∧
      Placement.Straight (LineIndex.ofText "ul\r\n  li(\n:a='é'\n)".toList)
        (byteLength "<template>\n".toList) (byteLength "<template>\n".toList) wrappedTokens ∧
      (placeTokens wrappedTokens "ul\r\n  li(\n:a='é'\n)".toList
        (byteLength "<template>\n".toList) (1 + "<template>\n".toList.count '\n')).map
          PlacedToken.kind = wrappedTokens.map Token.kind ∧
      ∀ token ∈ placeTokens wrappedTokens "ul\r\n  li(\n:a='é'\n)".toList
          (byteLength "<template>\n".toList) (1 + "<template>\n".toList.count '\n'),
        token.InPlace
          ("<template>\n".toList ++ "ul\r\n  li(\n:a='é'\n)".toList ++ "</template>".toList)
          (byteLength "<template>\n".toList)
          (byteLength "<template>\n".toList + byteLength "ul\r\n  li(\n:a='é'\n)".toList) :=
  ⟨tokenize_wrapped,
    placeTokens_tokenize tokenize_wrapped "<template>\n".toList "</template>".toList⟩

end PugLint
