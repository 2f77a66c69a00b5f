import PugLint.Proofs.Token.Respelling

/-!
# Lists of attributes in two parts

A list of attributes is closed behind one of its attributes and opened again in front of the next
one. The template can be read, the two lists belong to the same element, and there are two more
tokens. What stands up to the end of the first part stays where it is, and all that is behind
moves.

* `Parting`: a template, and the same template with a list in two parts;
* `Parting.exists_tokenize`: the tokens of the two and their ranges.
-/

namespace PugLint

open Lexer Text

namespace Lexer

/-! ### The end of a list behind an attribute -/

theorem isSeparator_not_sign {c : Char} (h : isSeparator c = true) : c ≠ '=' ∧ c ≠ '!' := by
  constructor
  · rintro rfl
    exact absurd h (by decide)
  · rintro rfl
    exact absurd h (by decide)

/-- Neither separators nor the end of a list give an attribute its value. -/
theorem scanAssignment_separators {separators : List Char}
    (h : ∀ c ∈ separators, isSeparator c = true) (rest : List Char) :
    scanAssignment (separators ++ ')' :: rest) = none := by
  rw [scanAssignment_eq_none_iff]
  induction separators with
  | nil => simp [StartsSign, isInlineBlank]
  | cons c separators ih =>
    obtain ⟨hc, hseparators⟩ := List.forall_mem_cons.1 h
    rw [List.cons_append, List.dropWhile_cons]
    split
    · exact ih hseparators
    · obtain ⟨hequals, hmark⟩ := isSeparator_not_sign hc
      rintro (⟨more, hmore⟩ | ⟨more, hmore⟩)
      · exact hequals (List.cons.inj hmore).1.symm
      · exact hmark (List.cons.inj hmore).1.symm

/-- An attribute at the end of a list does not see what is behind the list. -/
theorem AttributeAt.closing {kind : TokenKind} {written separators : List Char}
    (h : AttributeAt kind written (separators ++ [')']))
    (hseparators : ∀ c ∈ separators, isSeparator c = true) (rest : List Char) :
    AttributeAt kind written (separators ++ ')' :: rest) := by
  refine h.congr_of_endsAlike ?_ fun _ => scanAssignment_separators hseparators rest
  rcases separators with _ | ⟨c, separators⟩
  · exact ⟨')', [], rest, rfl, rfl, fun h => absurd h (by decide)⟩
  · refine ⟨c, separators ++ [')'], separators ++ ')' :: rest, rfl, rfl, ?_⟩
    exact fun hc => absurd hc (isSeparator_not_sign (hseparators c List.mem_cons_self)).2

/-! ### A list in two parts -/

/-- What stands in a list, behind what separates it from the attribute in front. -/
def Piece.listed (separators : List Char) (kind : TokenKind) (written : List Char) : Piece :=
  ⟨separators, [kind], written, []⟩

theorem Piece.text_listed (separators : List Char) (kind : TokenKind) (written : List Char) :
    (Piece.listed separators kind written).text = separators ++ written := by
  rw [Piece.text, listed, List.append_nil]

/-- The end of a list, the start of another one, and an attribute in it. -/
def reopening (first second : List Char) (kind : TokenKind) (written : List Char) : List Piece :=
  [.listed first .endAttributes [')'], .token .startAttributes ['('], .listed second kind written]

theorem textOf_reopening (first second : List Char) (kind : TokenKind) (written : List Char)
    (back : List Piece) : textOf (reopening first second kind written ++ back) =
      first ++ ')' :: '(' :: (second ++ (written ++ textOf back)) := by
  simp only [reopening, List.cons_append, List.nil_append, textOf_cons, Piece.text_listed,
    Piece.text_token, List.append_assoc]

/-- Behind an attribute, the next token that stands in the list is an attribute or its end. -/
theorem Path.exists_listed {levels : List Nat} {pieces : List Piece} {place : Position}
    (h : Path ⟨.list, levels⟩ pieces [] ⟨.done, []⟩) {token : Token}
    (htoken : (tokensFrom place pieces)[0]? = some token)
    (hattribute : token.kind.attribute? ≠ none) :
    ∃ between written back, pieces = .listed between token.kind written :: back ∧
      token.span.start = place.after between ∧
      (∀ c ∈ between, isSeparator c = true) ∧
      (∀ c ∈ (written ++ textOf back).head?, isSeparator c = false ∧ c ≠ ')') ∧
      ReadsAttribute token.kind written (textOf back) ∧ textOf back ≠ [] ∧
      Path ⟨.list, levels⟩ back [] ⟨.done, []⟩ := by
  cases h with
  | @cons _ t _ piece back _ hmove hback =>
    rw [List.append_nil] at hmove
    generalize hrest : textOf back = rest at hmove
    cases hmove with
    | listed hseparators hwritten h hne =>
      cases htoken
      subst hrest
      exact ⟨_, _, _, rfl, rfl, hseparators, hwritten, h, hne, hback⟩
    | closes =>
      cases htoken
      exact absurd rfl hattribute

/-- Two attributes that follow each other stand in the same list, and it can be parted between
    them. -/
theorem Path.exists_parted {pieces : List Piece} (h : Path ⟨.start, []⟩ pieces [] ⟨.done, []⟩)
    {k : Nat} {token token' : Token} (htoken : (tokensFrom .first pieces)[k]? = some token)
    (hattribute : token.kind.attribute? ≠ none)
    (htoken' : (tokensFrom .first pieces)[k + 1]? = some token')
    (hattribute' : token'.kind.attribute? ≠ none) :
    ∃ front separators written between written' back,
      pieces = front ++ .listed separators token.kind written ::
        .listed between token'.kind written' :: back ∧
      k = (front.flatMap Piece.kinds).length ∧
      token.span = ⟨Position.first.after (textOf front ++ separators),
        Position.first.after (textOf front ++ separators ++ written)⟩ ∧
      token'.span.start =
        Position.first.after (textOf front ++ separators ++ written ++ between) ∧
      ∀ first second : List Char, (∀ c ∈ first, isSeparator c = true) →
        (∀ c ∈ second, isSeparator c = true) →
        AttributeAt token.kind written (first ++ [')']) →
        Path ⟨.start, []⟩ (front ++ .listed separators token.kind written ::
          (reopening first second token'.kind written' ++ back)) [] ⟨.done, []⟩ := by
  obtain ⟨front, piece, back, m, rfl, rfl, hpiece⟩ := exists_piece_of_getElem? htoken
  obtain ⟨kind, hkind, heq⟩ : ∃ kind, piece.kinds[m]? = some kind ∧ _ := by
    rwa [Piece.tokens, List.getElem?_map, Option.map_eq_some_iff] at hpiece
  subst heq
  obtain ⟨t, hfront, hpath⟩ := h.exists_append
  cases hpath with
  | cons hmove hback =>
    rw [List.append_nil] at hmove
    obtain ⟨levels, separators, written, rfl, rfl, rfl, hseparators, hwritten, hat, hrest⟩ :=
      hmove.attribute_cases (List.mem_of_getElem? hkind) hattribute
    obtain rfl : m = 0 := by
      have hlt := (List.getElem?_eq_some_iff.1 hkind).1
      exact Nat.lt_one_iff.1 hlt
    have hnext : (tokensFrom ((Position.first.after (textOf front)).after
        (Piece.listed separators kind written).text) back)[0]? = some token' := by
      have hlength : (tokensFrom .first front).length = (front.flatMap Piece.kinds).length := by
        rw [← List.length_map (f := Token.kind), map_kind_tokensFrom]
      rwa [tokensFrom_append, List.getElem?_append_right (by omega), hlength, Nat.add_zero,
        Nat.add_sub_cancel_left, tokensFrom] at htoken'
    obtain ⟨between, written', back, rfl, hstart', hbetween, hwritten', hread', hne, hback⟩ :=
      hback.exists_listed hnext hattribute'
    refine ⟨front, separators, written, between, written', back, rfl, rfl, ?_, ?_,
      fun first second hfirst hsecond hclosing => ?_⟩
    · simp only [Position.after_append]
    · rw [hstart', Piece.text_listed]
      simp only [Position.after_append]
    · have hat' := hclosing.closing hfirst ('(' :: (second ++ (written' ++ textOf back)))
      have hhead (rest : List Char) : (written ++ rest).head? = written.head? := by
        obtain ⟨c, cs, rfl⟩ := List.exists_cons_of_ne_nil hat.ne_nil
        rfl
      have hstarts : ∀ rest, ∀ c ∈ (written ++ rest).head?, isSeparator c = false ∧ c ≠ ')' := by
        intro rest
        rw [hhead] at hwritten ⊢
        exact hwritten
      have hmove : Move ⟨.list, levels⟩ (.listed separators kind written)
          (textOf (reopening first second token'.kind written' ++ back) ++ [])
          ⟨.list, levels⟩ := by
        rw [List.append_nil, textOf_reopening]
        exact .listed hseparators (hstarts _) hat'.readsAttribute
          (List.append_ne_nil_of_right_ne_nil _ (List.cons_ne_nil _ _))
      have hmove' : Move ⟨.list, levels⟩ (.listed second token'.kind written')
          (textOf back ++ []) ⟨.list, levels⟩ := by
        rw [List.append_nil]
        exact .listed hsecond hwritten' hread' hne
      have hnew : Path ⟨.list, levels⟩ (.listed separators kind written ::
          (reopening first second token'.kind written' ++ back)) [] ⟨.done, []⟩ :=
        .cons hmove (.cons (.closes hfirst) (.cons .opens (.cons hmove' hback)))
      refine hfront.exchange hnew ?_
      refine ⟨separators, _, _, ?_, ?_, hat.startsAttribute (hstarts _),
        hat'.startsAttribute (hstarts _)⟩
      · rw [List.append_nil, textOf_cons, Piece.text, List.append_nil, List.append_assoc]
      · rw [List.append_nil, textOf_cons, Piece.text_listed, textOf_reopening, List.append_assoc]

theorem length_extentsFrom (n : Nat) (pieces : List Piece) :
    (extentsFrom n pieces).length = (pieces.flatMap Piece.kinds).length := by
  induction pieces generalizing n with
  | nil => rfl
  | cons piece pieces ih =>
    rw [extentsFrom, List.flatMap_cons, List.length_append, List.length_append, List.length_map, ih]

/-- A token and its range, moved by some bytes. -/
def shiftExtent (n : Nat) (extent : TokenKind × Nat × Nat) : TokenKind × Nat × Nat :=
  (extent.1, extent.2.1 + n, extent.2.2 + n)

/-- What separates an attribute from the one in front moves it and all that is behind. -/
theorem extentsFrom_listed (n : Nat) (separators : List Char) (kind : TokenKind)
    (written : List Char) (back : List Piece) :
    extentsFrom n (.listed separators kind written :: back) =
      (extentsFrom n (.listed [] kind written :: back)).map
        (shiftExtent (byteLength separators)) := by
  have hlisted (separators : List Char) : extentsFrom n (.listed separators kind written :: back) =
      (kind, n + byteLength separators, n + byteLength separators + byteLength written) ::
        extentsFrom (n + byteLength separators + byteLength written) back := by
    rw [extentsFrom, Piece.text_listed, byteLength_append, ← Nat.add_assoc]
    rfl
  rw [hlisted, hlisted, byteLength_nil, Nat.add_zero, List.map_cons, Nat.add_right_comm,
    extentsFrom_add]
  rfl

/-- The number of bytes between two parts of a list. -/
def inserted (first second : List Char) : Nat :=
  byteLength first + 2 + byteLength second

/-- The ranges behind the first part are moved by what stands between the parts. -/
theorem extentsFrom_reopening (n : Nat) (first second : List Char) (kind : TokenKind)
    (written : List Char) (back : List Piece) :
    extentsFrom n (reopening first second kind written ++ back) =
      (.endAttributes, n + byteLength first, n + byteLength first + 1) ::
      (.startAttributes, n + byteLength first + 1, n + byteLength first + 2) ::
      (extentsFrom n (.listed [] kind written :: back)).map
        (shiftExtent (inserted first second)) := by
  have hbehind : extentsFrom (n + (byteLength first + 2)) (.listed second kind written :: back) =
      (extentsFrom n (.listed [] kind written :: back)).map
        (shiftExtent (inserted first second)) := by
    rw [extentsFrom_listed, extentsFrom_add, List.map_map]
    refine List.map_congr_left fun extent _ => ?_
    simp only [Function.comp_apply, shiftExtent, inserted, Nat.add_assoc]
  rw [← hbehind, reopening, List.cons_append, extentsFrom, List.cons_append, extentsFrom,
    Piece.text_listed, Piece.text_token, byteLength_append]
  rfl

end Lexer

/-- A token of a template with a list in two parts, and the same one where the list is whole. It
    stands in front of byte `first`, or behind the `inserted` bytes that stand in place of
    `replaced` ones. -/
inductive PlacedToken.Rejoined (first inserted replaced : Nat) (token token' : PlacedToken) :
    Prop where
  | front (hkind : token'.kind = token.kind) (hstart : token'.start = token.start)
      (hstop : token'.stop = token.stop) (hle : token.stop ≤ first) :
      Rejoined first inserted replaced token token'
  | back (hkind : token'.kind = token.kind)
      (hstart : token'.start + inserted = token.start + replaced)
      (hstop : token'.stop + inserted = token.stop + replaced)
      (hle : first + inserted ≤ token.start) : Rejoined first inserted replaced token token'

/-- A template that can be read, and the same template with a list of attributes in two parts. The
    tokens with the numbers `k` and `k + 1` are attributes of the list. What stands between them
    is replaced by the end of the list and the start of another one, with separators `first` in
    front and `second` behind. In front of the end, the attribute can be read as before. -/
structure Parting (template template' : String) (tokens : List Token) (k : Nat)
    (before between first second : List Char) : Prop where
  tokenize_eq : tokenize template = .ok tokens
  last : ∃ opening written name value escaped, before = opening ++ written ∧
    tokens[k]? = some ⟨.attribute name value escaped, Position.first.after opening,
      Position.first.after before⟩ ∧
    ReadsAttribute (.attribute name value escaped) written (first ++ [')'])
  next : ∃ name value escaped stop, tokens[k + 1]? =
    some ⟨.attribute name value escaped, Position.first.after (before ++ between), stop⟩
  text_eq : ∃ after, template.toList = before ++ (between ++ after) ∧
    template'.toList = before ++ (first ++ ')' :: '(' :: (second ++ after))
  first_separators : ∀ c ∈ first, isSeparator c = true
  second_separators : ∀ c ∈ second, isSeparator c = true

namespace Parting

variable {template template' : String} {tokens : List Token} {k : Nat}
  {before between first second : List Char}

/-- Both templates are read along the same path, up to the end of one list and the start of
    another one. -/
theorem exists_path (h : Parting template template' tokens k before between first second) :
    ∃ front separators kind written kind' written' back,
      let joined := front ++ .listed separators kind written ::
        .listed between kind' written' :: back
      let parted := front ++ .listed separators kind written ::
        (reopening first second kind' written' ++ back)
      before = textOf front ++ separators ++ written ∧
      k = (front.flatMap Piece.kinds).length ∧
      tokens = tokensFrom .first joined ∧ template.toList = textOf joined ∧
      tokenize template' = .ok (tokensFrom .first parted) ∧
      template'.toList = textOf parted := by
  obtain ⟨htokens, ⟨opening, written, name, value, escaped, rfl, htoken, hreads⟩,
    ⟨name', value', escaped', stop, htoken'⟩, ⟨after, htemplate, htemplate'⟩, hfirst, hsecond⟩ := h
  obtain ⟨pieces, hpath, htext, rfl⟩ := exists_path_tokenize htokens
  obtain ⟨front, separators, shown, gap, written', back, rfl, rfl, hspan, hstart, hparted⟩ :=
    hpath.exists_parted htoken (by simp [TokenKind.attribute?]) htoken'
      (by simp [TokenKind.attribute?])
  dsimp only at hspan hstart hparted
  obtain ⟨hopening, hbefore⟩ := Span.mk.inj hspan
  -- The texts of the two attributes are those between the places where they start and end.
  have hsource : opening ++ (written ++ (between ++ after)) =
      textOf front ++ separators ++ (shown ++ (gap ++ (written' ++ textOf back))) := by
    rw [← List.append_assoc opening, ← htemplate, ← htext]
    simp only [textOf_append, textOf_cons, Piece.text_listed, List.append_assoc]
  obtain rfl := eq_of_after_eq hsource hopening
  have hshown : textOf front ++ separators ++ written ++ (between ++ after) =
      textOf front ++ separators ++ shown ++ (gap ++ (written' ++ textOf back)) := by
    simpa only [List.append_assoc] using hsource
  obtain rfl := List.append_cancel_left (eq_of_after_eq hshown hbefore)
  have hgap : textOf front ++ separators ++ written ++ between ++ after =
      textOf front ++ separators ++ written ++ gap ++ (written' ++ textOf back) := by
    simpa only [List.append_assoc] using hshown
  obtain rfl := List.append_cancel_left (eq_of_after_eq hgap hstart)
  have hafter := List.append_cancel_left hgap
  have hpath' := hparted first second hfirst hsecond hreads.attributeAt
  have htext' : template'.toList = textOf (front ++
      .listed separators (.attribute name value escaped) written ::
        (reopening first second (.attribute name' value' escaped') written' ++ back)) := by
    rw [htemplate', hafter, textOf_append, textOf_cons, Piece.text_listed, textOf_reopening]
    simp only [List.append_assoc]
  refine ⟨front, separators, _, written, _, written', back, rfl, rfl, rfl, htext.symm, ?_, htext'⟩
  rw [← tokenize_of_path hpath', ← htext', String.ofList_toList]

/-- The template with the list in two parts can be read. There are two more tokens, behind those
    up to the first part, and all others are the same ones, at the same place or moved. -/
theorem exists_tokenize (h : Parting template template' tokens k before between first second) :
    ∃ tokens' front ending opening back, tokenize template' = .ok tokens' ∧
      placeTokens tokens' template'.toList 0 1 = front ++ ending :: opening :: back ∧
      front.length = k + 1 ∧ ending.kind = .endAttributes ∧ opening.kind = .startAttributes ∧
      List.Forall₂ (PlacedToken.Rejoined (byteLength before) (inserted first second)
          (byteLength between))
        (front ++ back) (placeTokens tokens template.toList 0 1) := by
  obtain ⟨front, separators, kind, written, kind', written', back, hbefore, rfl, rfl, htext,
    htokens', htext'⟩ := h.exists_path
  have hsplit (pieces : List Piece) : extentsFrom 0 (front ++ .listed separators kind written ::
      pieces) = extentsFrom 0 (front ++ [.listed separators kind written]) ++
        extentsFrom (byteLength before) pieces := by
    rw [List.append_cons, extentsFrom_append, hbefore]
    simp [Piece.text_listed]
  have hplaced := map_extent_placeTokens (front ++ .listed separators kind written ::
    .listed between kind' written' :: back)
  have hplaced' := map_extent_placeTokens (front ++ .listed separators kind written ::
    (reopening first second kind' written' ++ back))
  rw [← htext, hsplit, extentsFrom_listed] at hplaced
  rw [← htext', hsplit, extentsFrom_reopening] at hplaced'
  obtain ⟨front', rest, hrest, hfront', hmore⟩ := List.map_eq_append_iff.1 hplaced'
  obtain ⟨ending, rest, rfl, hending, hmore⟩ := List.map_eq_cons_iff.1 hmore
  obtain ⟨opening, back', rfl, hopening, hback'⟩ := List.map_eq_cons_iff.1 hmore
  refine ⟨_, front', ending, opening, back', htokens', hrest, ?_, congrArg Prod.fst hending,
    congrArg Prod.fst hopening, ?_⟩
  · have hlength := congrArg List.length hfront'
    rw [List.length_map, length_extentsFrom, List.flatMap_append, List.length_append] at hlength
    exact hlength
  · -- The tokens correspond as their ranges do.
    have hextents : List.Forall₂ (fun extent extent' => ∀ token token' : PlacedToken,
        token.extent = extent → token'.extent = extent' →
          token.Rejoined (byteLength before) (inserted first second) (byteLength between) token')
        ((front' ++ back').map PlacedToken.extent)
        ((placeTokens (tokensFrom .first (front ++ .listed separators kind written ::
          .listed between kind' written' :: back)) template.toList 0 1).map
            PlacedToken.extent) := by
      rw [List.map_append, hfront', hback', hplaced]
      refine List.rel_append (List.forall₂_same.2 ?_) ?_
      · intro extent hm token token' h h'
        subst h
        have hbounds := bounds_of_mem_extentsFrom hm
        have htext : textOf (front ++ [.listed separators kind written]) = before := by
          rw [hbefore, textOf_append]
          simp [Piece.text_listed]
        rw [htext, Nat.zero_add] at hbounds
        simp only [PlacedToken.extent, Prod.mk.injEq] at h'
        exact .front h'.1 h'.2.1 h'.2.2 hbounds.2.2
      · rw [List.forall₂_map_left_iff, List.forall₂_map_right_iff]
        refine List.forall₂_same.2 fun extent hm token token' h h' => ?_
        obtain ⟨kind, start, stop⟩ := extent
        have hbounds := bounds_of_mem_extentsFrom hm
        simp only [PlacedToken.extent, shiftExtent, Prod.mk.injEq] at h h'
        exact .back (h'.1.trans h.1.symm) (by omega) (by omega) (by omega)
    rw [List.forall₂_map_left_iff, List.forall₂_map_right_iff] at hextents
    exact hextents.imp fun token token' h => h token token' rfl rfl

end Parting

end PugLint
