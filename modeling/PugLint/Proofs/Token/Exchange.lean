import PugLint.Proofs.Element.Attributes
import PugLint.Proofs.Token.Variation

/-!
# Exchanging one token

A template that can be read stays readable when an attribute of it is exchanged for another
one, or the name of an element for another name. An attribute stands in a list, and what is in
front of the list does not see into it. A name stands behind a colon or at the start of its
line; there it may become a keyword, and the line is then read as a whole.

* `Lexer.Path.exchange_attribute`: another attribute;
* `Lexer.Path.exists_tokenize_of_tag`: another name.
-/

namespace PugLint

namespace Lexer

/-! ### Attributes -/

/-- An attribute is a piece of a list. -/
theorem Move.attribute_cases {s t : State} {piece : Piece} {rest : List Char}
    (h : Move s piece rest t) {kind : TokenKind} (hkind : kind ∈ piece.kinds)
    (hattribute : kind.attribute? ≠ none) :
    ∃ levels separators written, s = ⟨.list, levels⟩ ∧ t = ⟨.list, levels⟩ ∧
      piece = ⟨separators, [kind], written, []⟩ ∧
      (∀ c ∈ separators, isSeparator c = true) ∧
      (∀ c ∈ (written ++ rest).head?, isSeparator c = false ∧ c ≠ ')') ∧
      AttributeAt kind written rest ∧ rest ≠ [] := by
  by_cases hs : s.stage = .list
  · cases h with
    | listed hseparators hwritten h hrest =>
      obtain rfl := List.mem_singleton.1 hkind
      exact ⟨_, _, _, rfl, rfl, rfl, hseparators, hwritten, h.attributeAt, hrest⟩
    | closes =>
      obtain rfl := List.mem_singleton.1 hkind
      exact absurd rfl hattribute
    | _ => cases hs
  · exact absurd (h.attribute?_eq_none hs kind hkind) hattribute

/-- An attribute is exchanged for another one. -/
theorem Path.exchange_attribute {front back : List Piece} {piece : Piece}
    (h : Path ⟨.start, []⟩ (front ++ piece :: back) [] ⟨.done, []⟩) {kind : TokenKind}
    (hkind : kind ∈ piece.kinds) (hattribute : kind.attribute? ≠ none) :
    AttributeAt kind piece.written (textOf back) ∧ piece.kinds = [kind] ∧ piece.behind = [] ∧
      (∀ c ∈ piece.written.head?, isSeparator c = false ∧ c ≠ ')') ∧
      ∀ {kind' : TokenKind} {written' : List Char}, AttributeAt kind' written' (textOf back) →
        (∀ c ∈ written'.head?, isSeparator c = false ∧ c ≠ ')') →
        Path ⟨.start, []⟩ (front ++ ⟨piece.skipped, [kind'], written', []⟩ :: back) []
          ⟨.done, []⟩ := by
  obtain ⟨t, hfront, hback⟩ := h.exists_append
  cases hback with
  | cons hmove hback =>
    rw [List.append_nil] at hmove
    obtain ⟨levels, separators, written, rfl, rfl, rfl, hseparators, hwritten, hat, hrest⟩ :=
      hmove.attribute_cases hkind hattribute
    have hhead {kind : TokenKind} {written : List Char}
        (hat : AttributeAt kind written (textOf back)) :
        (written ++ textOf back).head? = written.head? := by
      obtain ⟨c, cs, rfl⟩ := List.exists_cons_of_ne_nil hat.ne_nil
      rfl
    refine ⟨hat, rfl, rfl, hhead hat ▸ hwritten, fun {kind' written'} hat' hwritten' => ?_⟩
    rw [← hhead hat'] at hwritten'
    have hnew : Path ⟨.list, levels⟩ (⟨separators, [kind'], written', []⟩ :: back) []
        ⟨.done, []⟩ := by
      refine .cons ?_ hback
      rw [List.append_nil]
      exact .listed hseparators hwritten' hat'.readsAttribute hrest
    have halike : Alike (separators ++ (written ++ textOf back))
        (separators ++ (written' ++ textOf back)) :=
      ⟨separators, _, _, rfl, rfl, hat.startsAttribute hwritten, hat'.startsAttribute hwritten'⟩
    exact hfront.exchange hnew (by simpa [Varies, Piece.text] using halike)

/-! ### Names of elements -/

theorem WholeLine.ne_tag {line : List Char} {kind : TokenKind} {opensBlock : Bool}
    (h : WholeLine line kind opensBlock) (name : String) : kind ≠ .tag name :=
  h.of_kind (fun _ => nofun) (fun _ _ => nofun) (fun _ _ => nofun) (fun _ => nofun)
    fun _ _ => nofun

/-- The name of an element is a piece at the start of a head. -/
theorem Move.tag_cases {s t : State} {piece : Piece} {rest : List Char} (h : Move s piece rest t)
    {name : String} (hkind : .tag name ∈ piece.kinds) :
    ∃ levels, s = ⟨.head false, levels⟩ ∧ t = ⟨.head true, levels⟩ ∧
      piece = .token (.tag name) name.toList ∧ StartsWord name.toList ∧
      TagAt name.toList rest := by
  cases h with
  | @tag levels c more rest hc h =>
    cases List.mem_singleton.1 hkind
    rw [String.toList_ofList]
    exact ⟨levels, rfl, rfl, rfl, ⟨c, more, rfl, hc⟩, tagAt_of_scanTag h⟩
  | start | element | ended | trailing => exact absurd hkind List.not_mem_nil
  | whole h => exact absurd (List.mem_singleton.1 hkind).symm (h.ne_tag name)
  | code h => cases h <;> cases List.mem_singleton.1 hkind
  | literal h => cases h <;> cases List.mem_singleton.1 hkind
  | listed _ _ h =>
    obtain rfl := List.mem_singleton.1 hkind
    cases h.attributeAt
  | next _ _ _ _ h =>
    cases h with
    | deeper | same => cases List.mem_singleton.1 hkind
    | outer => cases List.eq_of_mem_replicate hkind
  | finish =>
    rcases List.mem_append.1 hkind with hkind | hkind
    · cases List.eq_of_mem_replicate hkind
    · cases List.mem_singleton.1 hkind
  | bar | call | dot | opens | spread | colon | slash | text | interpolation | closes | raw
  | rawText | rawNext | rawClose => cases List.mem_singleton.1 hkind

/-- The head of an element starts behind a colon or with its line. -/
theorem Path.head_cases {front : List Piece} {text : List Char} {levels : List Nat}
    (h : Path ⟨.start, []⟩ front text ⟨.head false, levels⟩) :
    ∃ before, (front = before ++ [.blank []] ∧
        Path ⟨.start, []⟩ before text ⟨.content, levels⟩) ∨
      ∃ blanks, front = before ++ [⟨[], [.colon], [':'], blanks⟩] ∧ blanks ≠ [] ∧
        (∀ c ∈ blanks, isInlineBlank c = true) ∧
        Path ⟨.start, []⟩ before (':' :: (blanks ++ text)) ⟨.head true, levels⟩ := by
  rcases List.eq_nil_or_concat front with rfl | ⟨before, piece, rfl⟩
  · cases h
  · rw [List.concat_eq_append] at h
    obtain ⟨t, hbefore, hlast⟩ := h.exists_append
    cases hlast with
    | cons hmove hnil =>
      cases hnil
      rw [textOf_nil, List.nil_append] at hmove
      refine ⟨before, ?_⟩
      generalize ht : (⟨.head false, levels⟩ : State) = u at hmove
      cases hmove with
      | element =>
        cases ht
        exact .inl ⟨by simp, by simpa using hbefore⟩
      | @colon levels blanks _ hne hblanks =>
        cases ht
        refine .inr ⟨blanks, by simp, hne, hblanks, ?_⟩
        simpa [Piece.text] using hbefore
      | start => split at ht <;> cases ht
      | _ => cases ht

theorem not_endsWord {c : Char} (hc : c ∉ ['\n', '\r', ' ']) (cs : List Char) :
    ¬(isLineEnd (c :: cs) = true ∨ (c :: cs).head? = some ' ') := by
  simp only [List.mem_cons, List.not_mem_nil, or_false, not_or] at hc
  rintro (hend | hhead)
  · rw [isLineEnd_cons_of_ne hc.1 hc.2.1] at hend
    cases hend
  · exact hc.2.2 (Option.some.inj hhead)

/-- A head that ends with its line, or goes on with a blank, is the rest of the line. -/
theorem Move.isLine_of_head {levels : List Nat} {piece : Piece} {rest : List Char} {t : State}
    (h : Move ⟨.head true, levels⟩ piece rest t)
    (hrest : isLineEnd (piece.text ++ rest) = true ∨ (piece.text ++ rest).head? = some ' ') :
    t = ⟨.lineEnd false, levels⟩ ∧ IsLine piece.text rest := by
  have hblank {c : Char} {line : List Char} (hc : isInlineBlank c = true)
      (hline : IsLine line rest) : IsLine (c :: line) rest :=
    isLine_cons_iff.2 ⟨isLineEnd_cons_of_isInlineBlank hc _, hline⟩
  cases h with
  | ended h => exact ⟨rfl, isLine_nil_iff.2 h⟩
  | trailing hc hline => exact ⟨rfl, by rw [Piece.text_blank]; exact hblank hc hline⟩
  | text hc hline => exact ⟨rfl, by simpa [Piece.text] using hblank hc hline⟩
  | literal hc => cases hc <;> exact absurd hrest (not_endsWord (by decide) _)
  | code hc => cases hc <;> exact absurd hrest (not_endsWord (by decide) _)
  | dot | opens | spread | colon | slash => exact absurd hrest (not_endsWord (by decide) _)

/-! ### Another name -/

/-- A name that an element may have. -/
structure IsTagName (name : List Char) : Prop where
  /-- The first character. -/
  word : StartsWord name
  /-- All characters. -/
  chars : ∀ c ∈ name, isTagChar c = true
  /-- The last character. -/
  last : ∀ c ∈ name.getLast?, isJoint c = false

variable {name rest : List Char}

theorem IsTagName.tagAt (h : IsTagName name) {other : List Char} (hrest : TagAt other rest) :
    TagAt name rest :=
  ⟨h.chars, h.last, hrest.behind⟩

theorem IsTagName.move (h : IsTagName name) (htag : TagAt name rest) (levels : List Nat) :
    Move ⟨.head false, levels⟩ (.token (.tag (String.ofList name)) name) rest
      ⟨.head true, levels⟩ := by
  obtain ⟨c, cs, rfl, hc⟩ := h.word
  exact .tag hc htag.scanTag

theorem ne_of_isTagChar {c : Char} (h : isTagChar c = true) : c ∉ ['\n', '\r', ' '] := by
  intro hc
  simp only [List.mem_cons, List.not_mem_nil, or_false] at hc
  rcases hc with rfl | rfl | rfl <;> exact absurd h (by decide)

/-- A name stands on one line. -/
theorem IsLine.append_tagName {line : List Char} (h : IsLine line rest)
    (hname : ∀ c ∈ name, isTagChar c = true) : IsLine (name ++ line) rest := by
  induction name with
  | nil => exact h
  | cons c name ih =>
    obtain ⟨hc, hname⟩ := List.forall_mem_cons.1 hname
    have hne := ne_of_isTagChar hc
    simp only [List.mem_cons, List.not_mem_nil, or_false, not_or] at hne
    exact isLine_cons_iff.2 ⟨isLineEnd_cons_of_ne hne.1 hne.2.1 _, ih hname⟩

/-- Behind a name that is a keyword the line ends or goes on with a blank. -/
theorem TagAt.isLineEnd_of_startsKeyword (h : TagAt name rest)
    (hkeyword : StartsKeyword (name ++ rest)) : isLineEnd rest = true ∨ rest.head? = some ' ' := by
  have hrest : rest.dropWhile Char.isLower = rest := by
    refine (takeWhile_append_stop (List.forall_mem_nil _) fun c hc => ?_).2
    obtain ⟨cs, rfl⟩ := List.head?_eq_some_iff.1 hc
    by_cases hjoint : isJoint c = true
    · simp only [isJoint, Bool.or_eq_true, beq_iff_eq] at hjoint
      rcases hjoint with rfl | rfl <;> rfl
    · have hbehind := h.behind c (by rw [List.dropWhile_cons_of_neg hjoint]; rfl)
      refine Bool.eq_false_iff.2 fun hlower => ?_
      rw [isTagChar, isAlphanum_of_isLower hlower] at hbehind
      cases hbehind
  have hends := hkeyword.1
  rw [List.dropWhile_append] at hends
  rcases hname : name.dropWhile Char.isLower with _ | ⟨c, cs⟩
  · rwa [hname, List.isEmpty_nil, if_pos rfl, hrest] at hends
  · have hc : isTagChar c = true := h.chars c (by
      have hmem : c ∈ name.dropWhile Char.isLower := hname ▸ List.mem_cons_self
      exact (List.dropWhile_suffix _).mem hmem)
    rw [hname] at hends
    exact absurd hends (not_endsWord (ne_of_isTagChar hc) _)

/-- A line that starts with a name is the head of an element, or a line of its own. -/
theorem exists_path_of_name {back : List Piece} {levels : List Nat} (h : IsTagName name)
    (htag : TagAt name (textOf back)) (hback : Path ⟨.head true, levels⟩ back [] ⟨.done, []⟩) :
    ∃ pieces, Path ⟨.content, levels⟩ pieces [] ⟨.done, []⟩ ∧
      textOf pieces = name ++ textOf back := by
  by_cases hkeyword : StartsKeyword (name ++ textOf back)
  · have hends := htag.isLineEnd_of_startsKeyword hkeyword
    have hsome : keywordLine? (splitLine (name ++ textOf back)).1 ≠ none :=
      fun hnone => (keywordLine?_splitLine _).1 hnone hkeyword
    cases hback with
    | @cons _ t _ piece others _ hmove hothers =>
      rw [List.append_nil] at hmove
      rw [textOf_cons] at hends hsome ⊢
      obtain ⟨rfl, hline⟩ := hmove.isLine_of_head hends
      have hall : IsLine (name ++ piece.text) (textOf others) := hline.append_tagName h.chars
      have hsplit : splitLine (name ++ (piece.text ++ textOf others)) =
          (name ++ piece.text, textOf others) := by
        rw [← List.append_assoc]
        exact hall
      rw [hsplit] at hsome
      obtain ⟨kind, hkind⟩ := Option.ne_none_iff_exists'.1 hsome
      refine ⟨.token kind (name ++ piece.text) :: others, .cons ?_ hothers, ?_⟩
      · rw [List.append_nil]
        exact .whole (.keyword hkind) hall
      · rw [textOf_cons, Piece.text_token, List.append_assoc]
  · refine ⟨.blank [] :: .token (.tag (String.ofList name)) name :: back,
      .cons (.element ?_) (.cons ?_ hback), ?_⟩
    · rw [List.append_nil, textOf_cons, Piece.text_token]
      obtain ⟨c, cs, rfl, hc⟩ := h.word
      obtain ⟨hhead, hcomment, hcode⟩ := unmarked_of_isAlphanum hc (cs ++ textOf back)
      exact ⟨List.cons_ne_nil _ _, hhead, hcomment, hcode, (keywordLine?_splitLine _).2 hkeyword⟩
    · rw [List.append_nil]
      exact h.move htag levels
    · simp

/-- The name of an element is exchanged for another one. -/
theorem Path.exists_tokenize_of_tag {front back : List Piece} {piece : Piece}
    (h : Path ⟨.start, []⟩ (front ++ piece :: back) [] ⟨.done, []⟩) {old : String}
    (hkind : .tag old ∈ piece.kinds) :
    piece = .token (.tag old) old.toList ∧ TagAt old.toList (textOf back) ∧
      ∀ {new : List Char}, IsTagName new → ∃ tokens,
        tokenize (String.ofList (textOf front ++ (new ++ textOf back))) = .ok tokens := by
  obtain ⟨t, hfront, hback⟩ := h.exists_append
  cases hback with
  | cons hmove hback =>
    rw [List.append_nil] at hmove
    obtain ⟨levels, rfl, rfl, rfl, hword, htag⟩ := hmove.tag_cases hkind
    refine ⟨rfl, htag, fun {new} hnew => ?_⟩
    have htag' := hnew.tagAt htag
    rw [textOf_cons, Piece.text_token, List.append_nil] at hfront
    have hwords : StartsWord (old.toList ++ textOf back) ∧ StartsWord (new ++ textOf back) := by
      obtain ⟨c, cs, hcs, hc⟩ := hword
      obtain ⟨d, ds, rfl, hd⟩ := hnew.word
      exact ⟨⟨c, cs ++ textOf back, by rw [hcs]; rfl, hc⟩, ⟨d, ds ++ textOf back, rfl, hd⟩⟩
    obtain ⟨before, ⟨rfl, hbefore⟩ | ⟨blanks, rfl, hne, hblanks, hbefore⟩⟩ := hfront.head_cases
    -- At the start of a line nothing in front sees more of it than that a word starts.
    · obtain ⟨pieces, hpieces, htext⟩ := exists_path_of_name hnew htag' hback
      have hvaries : Varies .content (old.toList ++ textOf back) (textOf pieces ++ []) := by
        rw [htext, List.append_nil]
        exact .inr hwords
      obtain ⟨tokens, htokens⟩ :=
        exists_tokenize_of_path ((hbefore.vary hvaries).1.append hpieces)
      refine ⟨tokens, ?_⟩
      rw [← htokens, textOf_append, textOf_append, htext]
      simp
    -- Behind a colon the blanks hide it.
    · obtain ⟨others, b, rfl⟩ : ∃ others b, blanks = others ++ [b] := by
        rcases List.eq_nil_or_concat blanks with rfl | ⟨others, b, rfl⟩
        · exact absurd rfl hne
        · exact ⟨others, b, List.concat_eq_append ..⟩
      have hhead : ∀ c ∈ (new ++ textOf back).head?, isInlineBlank c = false := hwords.2.marked.2
      have hpieces : Path ⟨.head true, levels⟩ (⟨[], [.colon], [':'], others ++ [b]⟩ ::
          .token (.tag (String.ofList new)) new :: back) [] ⟨.done, []⟩ := by
        refine .cons (.colon hne hblanks ?_) (.cons ?_ hback)
        · rwa [List.append_nil, textOf_cons, Piece.text_token]
        · rw [List.append_nil]
          exact hnew.move htag' levels
      have htext : textOf (⟨[], [.colon], [':'], others ++ [b]⟩ ::
          .token (.tag (String.ofList new)) new :: back) =
          ':' :: (others ++ [b] ++ (new ++ textOf back)) := by
        rw [textOf_cons, textOf_cons, Piece.text_token]
        rfl
      have hb : isBarrier b = true := by simp [isBarrier, hblanks b (by simp)]
      have hvaries : Varies (.head true) (':' :: (others ++ [b] ++ (old.toList ++ textOf back)))
          (textOf (⟨[], [.colon], [':'], others ++ [b]⟩ ::
            .token (.tag (String.ofList new)) new :: back) ++ []) := by
        rw [htext, List.append_nil]
        exact ⟨':' :: others, b, _, _, by simp, by simp, hb, .inr hwords⟩
      obtain ⟨tokens, htokens⟩ :=
        exists_tokenize_of_path ((hbefore.vary hvaries).1.append hpieces)
      refine ⟨tokens, ?_⟩
      rw [← htokens, textOf_append, textOf_append, htext, textOf_cons, textOf_nil]
      simp [Piece.text]

end Lexer

end PugLint
