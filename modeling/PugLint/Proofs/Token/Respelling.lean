import PugLint.Proofs.Linter.Ranges
import PugLint.Proofs.Rule.Counterparts
import PugLint.Proofs.Token.Exchange

/-!
# Names in full

The name of an attribute, written as a shorthand, is exchanged for the same name in full. The
template can be read again, and only that token is another one. What stands up to the start of
the name stays where it is, and all that is behind moves by the bytes that the name grows.

* `Lexer.extentsFrom`: the ranges of the tokens of pieces, which are those that the tokens get
  in the template;
* `Respelling`: a template, and the same template with a name in full;
* `Respelling.exists_tokenize`: the tokens of the two.
-/

namespace PugLint

open Lexer Text

/-! ### Ranges -/

/-- A token and its range. -/
def PlacedToken.extent (token : PlacedToken) : TokenKind × Nat × Nat :=
  (token.kind, token.start, token.stop)

namespace Lexer

/-- The tokens of pieces that stand one behind the other from a byte on, with their ranges. -/
def extentsFrom (n : Nat) : List Piece → List (TokenKind × Nat × Nat)
  | [] => []
  | piece :: pieces =>
    piece.kinds.map (fun kind => (kind, n + byteLength piece.skipped,
      n + byteLength piece.skipped + byteLength piece.written)) ++
      extentsFrom (n + byteLength piece.text) pieces

theorem extentsFrom_append (n : Nat) (pieces others : List Piece) :
    extentsFrom n (pieces ++ others) =
      extentsFrom n pieces ++ extentsFrom (n + byteLength (textOf pieces)) others := by
  induction pieces generalizing n with
  | nil => rfl
  | cons piece pieces ih =>
    rw [List.cons_append, extentsFrom, extentsFrom, ih, List.append_assoc, textOf_cons,
      byteLength_append, ← Nat.add_assoc n (byteLength piece.text)]

/-- Pieces further back have their tokens further back. -/
theorem extentsFrom_add (n shift : Nat) (pieces : List Piece) :
    extentsFrom (n + shift) pieces = (extentsFrom n pieces).map
      fun (kind, start, stop) => (kind, start + shift, stop + shift) := by
  induction pieces generalizing n with
  | nil => rfl
  | cons piece pieces ih =>
    rw [extentsFrom, extentsFrom, List.map_append, List.map_map, ← ih,
      Nat.add_right_comm n shift (byteLength piece.text)]
    congr 1
    refine List.map_congr_left fun kind _ => ?_
    simp only [Function.comp_apply, Prod.mk.injEq, true_and]
    omega

theorem bounds_of_mem_extentsFrom {n start stop : Nat} {kind : TokenKind} {pieces : List Piece}
    (h : (kind, start, stop) ∈ extentsFrom n pieces) :
    n ≤ start ∧ start ≤ stop ∧ stop ≤ n + byteLength (textOf pieces) := by
  induction pieces generalizing n with
  | nil => exact absurd h List.not_mem_nil
  | cons piece pieces ih =>
    rw [textOf_cons, byteLength_append]
    rcases List.mem_append.1 h with h | h
    · obtain ⟨_, _, heq⟩ := List.mem_map.1 h
      cases heq
      rw [Piece.text, byteLength_append, byteLength_append]
      omega
    · have hbounds := ih h
      omega

/-- Tokens over the same text are placed there. -/
theorem exists_cursor_placeFrom {index : LineIndex} {cursor start stop : Nat} {span : Span}
    (hresolve : Placement.resolve? index span = some (start, stop)) (hcursor : cursor ≤ start)
    (line : Nat) (kinds : List TokenKind) (others : List Token) :
    ∃ cursor' ≤ start,
      (Placement.placeFrom index 0 line cursor
        (kinds.map (fun kind => ⟨kind, span⟩) ++ others)).map PlacedToken.extent =
      kinds.map (fun kind => (kind, start, stop)) ++
        (Placement.placeFrom index 0 line cursor' others).map PlacedToken.extent := by
  induction kinds generalizing cursor with
  | nil => exact ⟨cursor, hcursor, rfl⟩
  | cons kind kinds ih =>
    obtain ⟨cursor', hle, heq⟩ := ih (show 0 + start ≤ start by omega)
    refine ⟨cursor', hle, ?_⟩
    rw [List.map_cons, List.cons_append, Placement.placeFrom,
      Placement.placeAfter_of_resolve? hresolve (by omega), List.map_cons, heq, List.map_cons,
      List.cons_append, PlacedToken.extent]
    simp only [Nat.zero_add]

/-- The tokens of pieces are placed over them. -/
theorem map_extent_placeFrom {template passed : List Char} {cursor : Nat} {pieces : List Piece}
    (htemplate : template = passed ++ textOf pieces) (hcursor : cursor ≤ byteLength passed)
    (line : Nat) :
    (Placement.placeFrom (LineIndex.ofText template) 0 line cursor
      (tokensFrom (Position.first.after passed) pieces)).map PlacedToken.extent =
      extentsFrom (byteLength passed) pieces := by
  induction pieces generalizing passed cursor with
  | nil => rfl
  | cons piece pieces ih =>
    have hresolve := Placement.resolve?_after (passed ++ piece.skipped) piece.written
      (piece.behind ++ textOf pieces)
    have htext : passed ++ piece.skipped ++ (piece.written ++ (piece.behind ++ textOf pieces)) =
        template := by
      rw [htemplate, textOf_cons, Piece.text]
      simp only [List.append_assoc]
    rw [htext, Position.after_append, Position.after_append, Position.after_append,
      byteLength_append] at hresolve
    obtain ⟨cursor', hle, heq⟩ := exists_cursor_placeFrom hresolve
      (Nat.le_add_right_of_le hcursor) line piece.kinds
      (tokensFrom ((Position.first.after passed).after piece.text) pieces)
    have hnext : cursor' ≤ byteLength (passed ++ piece.text) := by
      rw [Piece.text, byteLength_append, byteLength_append]
      omega
    have hmore := ih (by rw [htemplate, textOf_cons, List.append_assoc]) hnext
    rw [Position.after_append, byteLength_append] at hmore
    rw [tokensFrom, extentsFrom, ← hmore]
    exact heq

theorem map_extent_placeTokens (pieces : List Piece) :
    (placeTokens (tokensFrom .first pieces) (textOf pieces) 0 1).map PlacedToken.extent =
      extentsFrom 0 pieces :=
  map_extent_placeFrom (List.nil_append _).symm (Nat.le_refl _) 1

/-- The token with a given number is one of a piece, behind the tokens of those in front. -/
theorem exists_piece_of_getElem? {place : Position} {pieces : List Piece} {k : Nat} {token : Token}
    (h : (tokensFrom place pieces)[k]? = some token) :
    ∃ front piece back m, pieces = front ++ piece :: back ∧
      k = (front.flatMap Piece.kinds).length + m ∧
      (piece.tokens (place.after (textOf front)))[m]? = some token := by
  induction pieces generalizing place k with
  | nil => cases h
  | cons piece pieces ih =>
    have hlength : (piece.tokens place).length = piece.kinds.length := List.length_map ..
    rw [tokensFrom] at h
    by_cases hk : k < (piece.tokens place).length
    · rw [List.getElem?_append_left hk] at h
      exact ⟨[], piece, pieces, k, rfl, (Nat.zero_add k).symm, h⟩
    · rw [List.getElem?_append_right (Nat.le_of_not_lt hk)] at h
      obtain ⟨front, other, back, m, rfl, hm, hother⟩ := ih h
      refine ⟨piece :: front, other, back, m, rfl, ?_, ?_⟩
      · rw [List.flatMap_cons, List.length_append]
        omega
      · rwa [textOf_cons, Position.after_append]

/-- An attribute whose name is not quoted, as a piece of a list. -/
def named (skipped behind : List Char) (name : String) (value : Option String) (escaped : Bool) :
    Piece :=
  ⟨skipped, [.attribute name value escaped], name.toList ++ behind, []⟩

theorem extentsFrom_named (n : Nat) (skipped behind : List Char) (name : String)
    (value : Option String) (escaped : Bool) (back : List Piece) :
    extentsFrom n (named skipped behind name value escaped :: back) =
      (.attribute name value escaped, n + byteLength skipped,
        n + byteLength skipped + (name.utf8ByteSize + byteLength behind)) ::
        extentsFrom (n + byteLength skipped + (name.utf8ByteSize + byteLength behind)) back := by
  rw [extentsFrom, named, Piece.text, utf8ByteSize_eq]
  simp only [List.append_nil, byteLength_append, Nat.add_assoc]
  rfl

/-- Behind a name that is not quoted there is room for the value. -/
theorem AttributeAt.value_le {raw value : String} {escaped : Bool} {behind rest : List Char}
    (h : AttributeAt (.attribute raw (some value) escaped) (raw.toList ++ behind) rest)
    (hquote : ∀ c ∈ (raw.toList ++ behind).head?, c ≠ '"' ∧ c ≠ '\'') :
    value.utf8ByteSize ≤ byteLength behind := by
  generalize hwritten : raw.toList ++ behind = written at h hquote
  cases h with
  | @valued _ shown sign blanks value _ _ hat =>
    have hquote' : ∀ c ∈ shown.head?, c ≠ '"' ∧ c ≠ '\'' := by
      intro c hc
      obtain ⟨cs, rfl⟩ := List.head?_eq_some_iff.1 hc
      exact hquote c rfl
    obtain ⟨rfl, -⟩ := hat.shown_eq hquote'
    rw [String.toList_ofList] at hwritten
    obtain rfl := List.append_cancel_left hwritten
    rw [utf8ByteSize_eq, String.toList_ofList, byteLength_append, byteLength_append]
    omega

end Lexer

/-- Of a text, the place that is reached tells how much has been passed. -/
theorem eq_of_after_eq {before before' behind behind' : List Char}
    (h : before ++ behind = before' ++ behind')
    (hplace : Position.first.after before = Position.first.after before') : before = before' := by
  have hbytes := LineIndex.offset?_after before behind
  rw [h, hplace, LineIndex.offset?_after before' behind'] at hbytes
  have hsplit := splitAt?_append before behind
  rw [h, ← Option.some.inj hbytes, splitAt?_append before' behind'] at hsplit
  exact (congrArg Prod.fst (Option.some.inj hsplit)).symm

/-! ### Names in full -/

/-- Where a place moves to when a name that starts at a byte is written in full. -/
def Shorthand.moved (shorthand : Shorthand) (start place : Nat) : Nat :=
  if place ≤ start then place else place + shorthand.growth

theorem Shorthand.strictMono_moved (shorthand : Shorthand) (start : Nat) :
    StrictMono (shorthand.moved start) := by
  intro a b hlt
  simp only [moved]
  split <;> split <;> omega

namespace PlacedToken

variable {shorthand : Shorthand} {start : Nat} {token token' : PlacedToken}

/-- What stands in front of the name stays. -/
theorem counterpart_of_stop_le (hroomy : token.Roomy) (h : token'.extent = token.extent)
    (hstop : token.stop ≤ start) : token.Counterpart (shorthand.moved start) False token' := by
  simp only [extent, Prod.mk.injEq] at h
  refine .shifted 0 hroomy ⟨h.1, h.2.1, h.2.2, fun place _ hplace => ?_⟩
  exact if_pos (hplace.trans hstop)

/-- What stands behind the name moves. -/
theorem counterpart_of_lt_start (hroomy : token.Roomy)
    (h : token'.extent =
      (token.kind, token.start + shorthand.growth, token.stop + shorthand.growth))
    (hstart : start < token.start) :
    token.Counterpart (shorthand.moved start) False token' := by
  simp only [extent, Prod.mk.injEq] at h
  refine .shifted shorthand.growth hroomy ⟨h.1, h.2.1, h.2.2, fun place hplace _ => ?_⟩
  exact if_neg (Nat.not_le.2 (hstart.trans_le hplace))

/-- The attribute grows with its name. -/
theorem counterpart_respelled {rest : List Char} {value : Option String} {escaped : Bool}
    {size : Nat} (hvalue : ∀ text : String, value = some text → text.utf8ByteSize ≤ size)
    (h : token.extent = (.attribute (shorthand.short rest) value escaped, start,
      start + ((shorthand.short rest).utf8ByteSize + size)))
    (h' : token'.extent = (.attribute (shorthand.full rest) value escaped, start,
      start + ((shorthand.full rest).utf8ByteSize + size))) :
    token.Counterpart (shorthand.moved start) False token' := by
  simp only [extent, Prod.mk.injEq] at h h'
  obtain ⟨hkind, rfl, hstop⟩ := h
  obtain ⟨hkind', hstart', hstop'⟩ := h'
  rw [Shorthand.utf8ByteSize_full] at hstop'
  refine .respelled shorthand rest id ⟨⟨value, escaped, hkind, hkind'⟩, hstart', by omega, by omega,
    ?_, if_pos (Nat.le_refl _), fun place hplace _ => if_neg (Nat.not_le.2 hplace)⟩
  intro name text htext
  rw [attribute?, hkind] at htext
  cases htext
  have := hvalue text rfl
  omega

end PlacedToken

/-- A template that can be read, and the same template with the name of an attribute in full. The
    attribute is the token with number `k`; its name is a shorthand in front of `rest` and
    stands behind `before`, without quotes. -/
structure Respelling (template template' : String) (tokens : List Token) (k : Nat)
    (shorthand : Shorthand) (before rest : List Char) : Prop where
  tokenize_eq : tokenize template = .ok tokens
  token_eq : ∃ value escaped stop, tokens[k]? =
    some ⟨.attribute (shorthand.short rest) value escaped, Position.first.after before, stop⟩
  text_eq : ∃ after, template.toList = before ++ ((shorthand.short rest).toList ++ after) ∧
    template'.toList = before ++ ((shorthand.full rest).toList ++ after)

namespace Respelling

variable {template template' : String} {tokens : List Token} {k : Nat} {shorthand : Shorthand}
  {before rest : List Char}

/-- Both templates are read along the same path, one piece apart. -/
theorem exists_path (h : Respelling template template' tokens k shorthand before rest) :
    ∃ front skipped behind back value escaped,
      let pieces (name : String) := front ++ named skipped behind name value escaped :: back
      before = textOf front ++ skipped ∧ k = (front.flatMap Piece.kinds).length ∧
      (∀ text : String, value = some text → text.utf8ByteSize ≤ byteLength behind) ∧
      tokens = tokensFrom .first (pieces (shorthand.short rest)) ∧
      template.toList = textOf (pieces (shorthand.short rest)) ∧
      tokenize template' = .ok (tokensFrom .first (pieces (shorthand.full rest))) ∧
      template'.toList = textOf (pieces (shorthand.full rest)) := by
  obtain ⟨htokens, ⟨value, escaped, stop, htoken⟩, after, htemplate, htemplate'⟩ := h
  obtain ⟨pieces, hpath, htext, rfl⟩ := exists_path_tokenize htokens
  obtain ⟨front, piece, back, m, rfl, rfl, hpiece⟩ := exists_piece_of_getElem? htoken
  obtain ⟨kind, hkind, heq⟩ : ∃ kind, piece.kinds[m]? = some kind ∧ _ := by
    rwa [Piece.tokens, List.getElem?_map, Option.map_eq_some_iff] at hpiece
  obtain ⟨rfl, hplace, -⟩ := by simpa only [Token.mk.injEq, Span.mk.injEq] using heq
  obtain ⟨hat, hkinds, hbehind, -, hexchange⟩ :=
    hpath.exchange_attribute (List.mem_of_getElem? hkind) (by simp [TokenKind.attribute?])
  obtain rfl : m = 0 := by
    have hlt := (List.getElem?_eq_some_iff.1 hkind).1
    rw [hkinds] at hlt
    exact Nat.lt_one_iff.1 hlt
  obtain ⟨skipped, kinds, written, behind⟩ := piece
  dsimp only at hplace hat hkinds hbehind hexchange
  subst hkinds hbehind
  -- The name starts where the text in front of it ends.
  have hsource : textOf front ++ skipped ++ (written ++ textOf back) =
      before ++ ((shorthand.short rest).toList ++ after) := by
    rw [← htemplate, ← htext, textOf_append, textOf_cons, Piece.text]
    simp only [List.append_assoc, List.nil_append]
  obtain rfl : textOf front ++ skipped = before :=
    eq_of_after_eq hsource (by rw [Position.after_append]; exact hplace)
  have hwritten := List.append_cancel_left hsource
  have hquote : ∀ c ∈ written.head?, c ≠ '"' ∧ c ≠ '\'' := by
    intro c hc
    obtain ⟨cs, rfl⟩ := List.head?_eq_some_iff.1 hc
    rw [Shorthand.toList_short, List.cons_append, List.cons_append, List.cons.injEq] at hwritten
    rw [hwritten.1]
    cases shorthand <;> decide
  have hraw : (shorthand.short rest).toList = [] ++ ([shorthand.sign] ++ rest) :=
    shorthand.toList_short rest
  obtain ⟨behind, rfl, hrename⟩ := hat.rename hraw hquote
  have hopening : ∀ c ∈ shorthand.opening, isNamePlain c = true ∧ c ≠ '"' ∧ c ≠ '\'' := by
    cases shorthand <;> simp [Shorthand.opening, isNamePlain]
  have hsign : ∀ c ∈ [shorthand.sign], c ≠ '[' ∧ c ≠ ']' := by
    cases shorthand <;> simp [Shorthand.sign]
  have hat' := hrename hsign hopening (by cases shorthand <;> simp [Shorthand.opening])
  have hshort : named skipped behind (shorthand.short rest) value escaped =
      ⟨skipped, [.attribute (shorthand.short rest) value escaped],
        [] ++ ([shorthand.sign] ++ rest) ++ behind, []⟩ := by
    rw [named, hraw]
  have hfull : named skipped behind (shorthand.full rest) value escaped =
      ⟨skipped, [.attribute (shorthand.full rest) value escaped],
        [] ++ (shorthand.opening ++ rest) ++ behind, []⟩ := by
    rw [named, Shorthand.toList_full, List.nil_append]
  have hpath' : Path ⟨.start, []⟩
      (front ++ named skipped behind (shorthand.full rest) value escaped :: back) []
      ⟨.done, []⟩ := by
    rw [hfull]
    exact hexchange hat' (by cases shorthand <;> (rintro c ⟨⟩; decide))
  have htext' : template'.toList =
      textOf (front ++ named skipped behind (shorthand.full rest) value escaped :: back) := by
    rw [← hraw, List.append_assoc] at hwritten
    rw [htemplate', ← List.append_cancel_left hwritten, textOf_append, textOf_cons, Piece.text,
      named]
    simp only [List.append_assoc, List.append_nil]
  refine ⟨front, skipped, behind, back, value, escaped, rfl, rfl, ?_, ?_, ?_, ?_, htext'⟩
  · rintro text rfl
    rw [← hraw] at hat hquote
    exact hat.value_le hquote
  · rw [← hshort]
  · rw [← htext, ← hshort]
  · rw [← tokenize_of_path hpath', ← htext', String.ofList_toList]

/-- The template with the name in full can be read, only that token is another one, and each
    token has its counterpart behind those that stay in front. -/
theorem exists_tokenize (h : Respelling template template' tokens k shorthand before rest) :
    ∃ tokens' value escaped, tokenize template' = .ok tokens' ∧
      (tokens.map Token.kind)[k]? = some (.attribute (shorthand.short rest) value escaped) ∧
      tokens'.map Token.kind =
        (tokens.map Token.kind).set k (.attribute (shorthand.full rest) value escaped) ∧
      List.Forall₂ (PlacedToken.Counterpart (shorthand.moved (byteLength before)) False)
        (placeTokens tokens template.toList 0 1) (placeTokens tokens' template'.toList 0 1) := by
  have hroomy : ∀ token ∈ placeTokens tokens template.toList 0 1, token.Roomy :=
    fun token hm => ((Placement.straight_and_inPlace h.tokenize_eq [] []).2 token hm).roomy
  obtain ⟨front, skipped, behind, back, value, escaped, rfl, rfl, hvalue, rfl, htext, htokens',
    htext'⟩ := h.exists_path
  refine ⟨_, value, escaped, htokens', ?_, ?_, ?_⟩
  · simp [map_kind_tokensFrom, named]
  · simp [map_kind_tokensFrom, named]
  · rw [htext] at hroomy ⊢
    rw [htext']
    have hgrown (n : Nat) : n + ((shorthand.full rest).utf8ByteSize + byteLength behind) =
        n + ((shorthand.short rest).utf8ByteSize + byteLength behind) + shorthand.growth := by
      rw [Shorthand.utf8ByteSize_full]
      omega
    have hpos := shorthand.utf8ByteSize_short_pos rest
    -- The tokens correspond as their ranges do.
    have hextents : List.Forall₂ (fun extent extent' => ∀ token token' : PlacedToken,
        token.extent = extent → token'.extent = extent' → token.Roomy →
          token.Counterpart (shorthand.moved (byteLength (textOf front ++ skipped))) False token')
        (extentsFrom 0 (front ++ named skipped behind (shorthand.short rest) value escaped :: back))
        (extentsFrom 0
          (front ++ named skipped behind (shorthand.full rest) value escaped :: back)) := by
      rw [extentsFrom_append, extentsFrom_append, extentsFrom_named, extentsFrom_named,
        Nat.zero_add, byteLength_append]
      refine List.rel_append (List.forall₂_same.2 ?_) (.cons ?_ ?_)
      · intro extent hm token token' h h' hroomy
        subst h
        have hbounds := bounds_of_mem_extentsFrom hm
        exact PlacedToken.counterpart_of_stop_le hroomy h' (by omega)
      · intro token token' h h' _
        exact PlacedToken.counterpart_respelled hvalue h h'
      · rw [hgrown, extentsFrom_add _ shorthand.growth, List.forall₂_map_right_iff]
        refine List.forall₂_same.2 fun extent hm token token' h h' hroomy => ?_
        subst h
        have hbounds := bounds_of_mem_extentsFrom hm
        exact PlacedToken.counterpart_of_lt_start hroomy h' (by omega)
    rw [← map_extent_placeTokens, ← map_extent_placeTokens, List.forall₂_map_left_iff,
      List.forall₂_map_right_iff] at hextents
    refine ((List.forall₂_and_left _ _).2 ⟨hroomy, hextents⟩).imp ?_
    exact fun token token' h => h.2 token token' rfl rfl h.1

end Respelling

end PugLint
