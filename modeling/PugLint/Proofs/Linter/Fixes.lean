import PugLint.Proofs.Casing
import PugLint.Proofs.Edit
import PugLint.Proofs.Element.Titles
import PugLint.Proofs.Linter.Ranges

/-!
# Templates after a fix

A fix has one edit, and the edit lies within a token. Three rules have fixes: a property is
replaced inside the value of an attribute, the name of an attribute is spelled otherwise, and
so is the name of an element. The token is then another one of its kind, and the template can
be read again.

Two things are in the way. A quoted name starts behind the first byte of its token, which the
edit does not know, so that it cuts the quotes apart. And a dash at the end of a name is no
part of it, but the conversion of a name may end in one.

* `PlacedToken.Over`: a token over a piece of the template;
* `PlacedToken.Over.tokenize_slots`, `PlacedToken.Over.tokenize_attributeName`,
  `PlacedToken.Over.tokenize_elementName`: the three edits;
* `fixes_readable`: a template after a fix of one of its diagnostics.
-/

namespace PugLint

open Lexer Text

/-! ### Places -/

/-- A token that was placed without repair has the range of its span. -/
theorem Placement.Straight.exists_resolve? {index : LineIndex} {offset line cursor : Nat}
    {tokens : List Token} (h : Straight index offset cursor tokens) {placed : PlacedToken}
    (hplaced : placed ∈ placeFrom index offset line cursor tokens) :
    ∃ token ∈ tokens, ∃ start stop, resolve? index token.span = some (start, stop) ∧
      placed.kind = token.kind ∧ placed.start = offset + start ∧ placed.stop = offset + stop := by
  induction tokens generalizing cursor with
  | nil => exact absurd hplaced List.not_mem_nil
  | cons token tokens ih =>
    obtain ⟨start, stop, hresolve, hcursor, hstraight⟩ := h
    rw [placeFrom, placeAfter_of_resolve? hresolve hcursor] at hplaced
    rcases List.mem_cons.1 hplaced with rfl | hplaced
    · exact ⟨token, List.mem_cons_self, start, stop, hresolve, rfl, rfl, rfl⟩
    · obtain ⟨other, hother, hrest⟩ := ih hstraight hplaced
      exact ⟨other, List.mem_cons_of_mem _ hother, hrest⟩

/-- A token of pieces is a token of one of them. -/
theorem Lexer.exists_piece_of_mem_tokensFrom {place : Position} {pieces : List Piece}
    {token : Token} (h : token ∈ tokensFrom place pieces) :
    ∃ front piece back, pieces = front ++ piece :: back ∧
      token ∈ piece.tokens (place.after (textOf front)) := by
  induction pieces generalizing place with
  | nil => exact absurd h List.not_mem_nil
  | cons piece pieces ih =>
    rcases List.mem_append.1 h with h | h
    · exact ⟨[], piece, pieces, rfl, h⟩
    · obtain ⟨front, other, back, rfl, hother⟩ := ih h
      refine ⟨piece :: front, other, back, rfl, ?_⟩
      rwa [textOf_cons, Position.after_append]

/-- A token stands over a piece of a path through the template. -/
structure PlacedToken.Over (source : String) (front : List Piece) (piece : Piece)
    (back : List Piece) (token : PlacedToken) : Prop where
  path : Path ⟨.start, []⟩ (front ++ piece :: back) [] ⟨.done, []⟩
  source_eq : source.toList = textOf front ++ (piece.text ++ textOf back)
  kind_mem : token.kind ∈ piece.kinds
  start_eq : token.start = byteLength (textOf front ++ piece.skipped)
  stop_eq : token.stop = token.start + byteLength piece.written

/-- Each token of a template stands over a piece of it. -/
theorem exists_over_of_tokenize {source : String} {tokens : List Token}
    (h : tokenize source = .ok tokens) {placed : PlacedToken}
    (hplaced : placed ∈ placeTokens tokens source.toList 0 1) :
    ∃ front piece back, placed.Over source front piece back := by
  obtain ⟨token, htoken, start, stop, hresolve, hkind, hstart, hstop⟩ :=
    (Placement.straight_and_inPlace h [] []).1.exists_resolve? hplaced
  obtain ⟨pieces, hpath, htext, rfl⟩ := exists_path_tokenize h
  obtain ⟨front, piece, back, rfl, hpiece⟩ := exists_piece_of_mem_tokensFrom htoken
  obtain ⟨kind, hmem, rfl⟩ := List.mem_map.1 hpiece
  rw [textOf_append, textOf_cons] at htext
  have hrange := Placement.resolve?_after (textOf front ++ piece.skipped) piece.written
    (piece.behind ++ textOf back)
  have hsource : textOf front ++ piece.skipped ++ (piece.written ++ (piece.behind ++ textOf back)) =
      source.toList := by
    rw [← htext, Piece.text]
    simp only [List.append_assoc]
  simp only [hsource, Position.after_append] at hrange
  cases hrange.symm.trans hresolve
  rw [byteLength_nil, Nat.zero_add] at hstart hstop
  exact ⟨front, piece, back, hpath, htext.symm, hkind ▸ hmem, hstart, by rw [hstop, hstart]⟩

theorem PlacedToken.nameRange_fst (token : PlacedToken) : token.nameRange.1 = token.start := by
  rw [nameRange, nameRange?]
  cases token.attribute? <;> rfl

/-- The name that is checked stands in what is written of it. -/
theorem Rule.exists_append_of_checkedName? {raw name : String} {offset : Nat}
    (h : checkedName? raw = some (name, offset)) :
    ∃ before after, raw.toList = before ++ (name.toList ++ after) ∧
      offset = byteLength before := by
  unfold checkedName? at h
  split at h
  · cases h
    exact ⟨[], [], by simp, rfl⟩
  · split at h
    · obtain ⟨argument, -, h⟩ := Option.bind_eq_some_iff.1 h
      obtain ⟨⟨before, rest⟩, hsplit, h⟩ := Option.bind_eq_some_iff.1 h
      cases h
      exact ⟨before, _, by rw [← List.append_assoc,
        append_drop_of_splitBefore? hsplit], rfl⟩
    · cases h

namespace PlacedToken.Over

variable {source : String} {front back : List Piece} {piece : Piece} {token : PlacedToken}
  {fix : Fix} {edit : Edit}

/-! ### Attributes -/

/-- An attribute as the reader takes it, and a template with another one in its place. -/
theorem attributeAt (h : token.Over source front piece back) {raw : String} {value : Option String}
    (hattribute : token.attribute? = some (raw, value)) :
    ∃ escaped, AttributeAt (.attribute raw value escaped) piece.written (textOf back) ∧
      source.toList = textOf front ++ piece.skipped ++ (piece.written ++ textOf back) ∧
      ∀ {kind : TokenKind} {written : List Char}, AttributeAt kind written (textOf back) →
        written.head? = piece.written.head? ∨
          (∀ c ∈ written.head?, isSeparator c = false ∧ c ≠ ')') →
        ∃ tokens, tokenize (String.ofList
          (textOf front ++ piece.skipped ++ (written ++ textOf back))) = .ok tokens := by
  obtain ⟨escaped, hkind⟩ := TokenKind.exists_of_attribute? hattribute
  have hmem := h.kind_mem
  rw [hkind] at hmem
  obtain ⟨hat, -, hbehind, hhead, hexchange⟩ :=
    h.path.exchange_attribute hmem (by rw [TokenKind.attribute?]; exact nofun)
  refine ⟨escaped, hat, ?_, fun {kind written} hat' hhead' => ?_⟩
  · rw [h.source_eq, Piece.text, hbehind]
    simp only [List.append_assoc, List.append_nil]
  · have hwritten : ∀ c ∈ written.head?, isSeparator c = false ∧ c ≠ ')' := by
      rcases hhead' with hhead' | hhead'
      · rwa [hhead']
      · exact hhead'
    obtain ⟨tokens, htokens⟩ := exists_tokenize_of_path (hexchange hat' hwritten)
    refine ⟨tokens, ?_⟩
    rw [← htokens, textOf_append, textOf_cons, Piece.text]
    simp only [List.append_assoc, List.append_nil]

/-- A use of the deprecated property is replaced. -/
theorem tokenize_slots (h : token.Over source front piece back) (hroomy : token.Roomy)
    {raw value : String} (hattribute : token.attribute? = some (raw, some value))
    {directive : Directive} {offset : Nat}
    (hoffset : offset ∈ Rule.scopedSlotsOffsets directive (Expression.unquoteChars value.toList))
    (hedit : token.edit? (token.expressionStart value + offset)
      (token.expressionStart value + offset + Rule.scopedSlots.utf8ByteSize) "$slots" = some edit)
    (hedits : fix.edits = [edit]) : ∃ tokens, tokenize (fix.apply source) = .ok tokens := by
  obtain ⟨-, rfl⟩ := edit?_eq_some_iff.1 hedit
  obtain ⟨escaped, hat, hsource, hexchange⟩ := h.attributeAt hattribute
  obtain ⟨before, after, hinside, rfl⟩ := Rule.exists_append_of_mem_scopedSlotsOffsets hoffset
  obtain ⟨opening, closing, hvalue, hopening⟩ := Expression.exists_append_unquoteChars value
  rw [hinside] at hvalue
  have hsplit : value.toList =
      opening ++ before ++ '$' :: ("scopedSlots".toList ++ (after ++ closing)) := by
    rw [hvalue, show Rule.scopedSlots.toList = '$' :: "scopedSlots".toList from rfl]
    simp only [List.append_assoc, List.cons_append]
  -- The dollar sign stays, and the characters behind it are plain.
  have hold : "scopedSlots".toList.all isValuePlain = true := by decide
  have hnew : "slots".toList.all isValuePlain = true := by decide
  obtain ⟨start, hstart, hwritten, hat'⟩ := hat.revalue hsplit (by decide)
    (List.all_eq_true.1 hold) (List.all_eq_true.1 hnew)
  have hhead : (start ++ (opening ++ before ++ '$' :: ("slots".toList ++
      (after ++ closing)))).head? = piece.written.head? := by
    rw [hwritten, List.head?_append_of_ne_nil _ hstart, List.head?_append_of_ne_nil _ hstart]
  obtain ⟨tokens, htokens⟩ := hexchange hat' (.inl hhead)
  have hbytes : token.expressionStart value + byteLength before =
      byteLength (textOf front ++ piece.skipped ++ (start ++ (opening ++ before))) := by
    have hstop := h.stop_eq
    rw [hwritten, ← hsplit, byteLength_append] at hstop
    rw [expressionStart, hroomy.valueRange_eq hattribute, utf8ByteSize_eq, hopening]
    simp only [hstop, h.start_eq, byteLength_append]
    omega
  have htext : source.toList = textOf front ++ piece.skipped ++ (start ++ (opening ++ before)) ++
      (Rule.scopedSlots.toList ++ (after ++ (closing ++ textOf back))) := by
    rw [hsource, hwritten, show Rule.scopedSlots.toList = '$' :: "scopedSlots".toList from rfl]
    simp only [List.append_assoc, List.cons_append]
  refine ⟨tokens, ?_⟩
  rw [← htokens, Fix.apply_append hedits htext hbytes (by rw [utf8ByteSize_eq]),
    show "$slots".toList = '$' :: "slots".toList from rfl]
  simp only [List.append_assoc, List.cons_append]

/-- The checked part of the name of an attribute is spelled otherwise. -/
theorem tokenize_attributeName (h : token.Over source front piece back) {raw name : String}
    {value : Option String} (hattribute : token.attribute? = some (raw, value)) {offset : Nat}
    (hchecked : Rule.checkedName? raw = some (name, offset)) (hne : name ≠ "")
    {style : CaseStyle}
    (hedit : token.edit? (token.nameRange.1 + offset)
      (token.nameRange.1 + offset + name.utf8ByteSize) (style.convertExact name) = some edit)
    (hedits : fix.edits = [edit])
    (hquote : ∀ c ∈ piece.written.head?, c ≠ '"' ∧ c ≠ '\'') :
    ∃ tokens, tokenize (fix.apply source) = .ok tokens := by
  obtain ⟨-, rfl⟩ := edit?_eq_some_iff.1 hedit
  obtain ⟨escaped, hat, hsource, hexchange⟩ := h.attributeAt hattribute
  obtain ⟨before, after, hraw, rfl⟩ := Rule.exists_append_of_checkedName? hchecked
  obtain ⟨behind, hwritten, hrename⟩ := hat.rename hraw hquote
  have hold : source.toList = textOf front ++ piece.skipped ++ before ++
      (name.toList ++ (after ++ (behind ++ textOf back))) := by
    rw [hsource, hwritten]
    simp only [List.append_assoc]
  have hstart : token.nameRange.1 + byteLength before =
      byteLength (textOf front ++ piece.skipped ++ before) := by
    rw [nameRange_fst, byteLength_append, ← h.start_eq]
  have happly := Fix.apply_append hedits hold hstart (by rw [utf8ByteSize_eq])
  have hnew : ∃ kind, AttributeAt kind
      (before ++ ((style.convertExact name).toList ++ after) ++ behind) (textOf back) ∧
        ((before ++ ((style.convertExact name).toList ++ after) ++ behind).head? =
            piece.written.head? ∨
          ∀ c ∈ (before ++ ((style.convertExact name).toList ++ after) ++ behind).head?,
            isSeparator c = false ∧ c ≠ ')') := by
    simp only [CaseStyle.convertExact]
    split
    · rename_i hcheck
      have hbrackets : ∀ c ∈ name.toList, c ≠ '[' ∧ c ≠ ']' := by
        intro c hc
        have hsymbol := CaseStyle.not_isSymbol_of_check_convert hcheck c hc
        constructor <;>
        · rintro rfl
          cases hsymbol
      have hconverted : (style.convert name).toList ≠ [] :=
        (style.respells_convert name).ne_nil (by simpa using hne)
      refine ⟨_, hrename hbrackets (CaseStyle.isNamePlain_of_check hcheck) hconverted, ?_⟩
      rcases before with _ | ⟨c, before⟩
      · obtain ⟨c, cs, hcs⟩ := List.exists_cons_of_ne_nil hconverted
        have hc := CaseStyle.not_isSeparator_of_check hcheck c (hcs ▸ List.mem_cons_self)
        rw [hcs]
        exact .inr fun d hd => by cases hd; exact hc
      · exact .inl (by rw [hwritten]; rfl)
    · exact ⟨_, hwritten ▸ hat, .inl (by rw [hwritten])⟩
  obtain ⟨kind, hat', hhead⟩ := hnew
  obtain ⟨tokens, htokens⟩ := hexchange hat' hhead
  refine ⟨tokens, ?_⟩
  rw [← htokens, happly]
  simp only [List.append_assoc]

/-! ### Names of elements -/

/-- The name of an element is spelled otherwise. -/
theorem tokenize_elementName (h : token.Over source front piece back) {name : String}
    (hkind : token.kind = .tag name) {style : CaseStyle} (hcheck : style.check name = false)
    (hedit : token.edit? token.start token.stop (style.convertExact name) = some edit)
    (hedits : fix.edits = [edit]) (hlast : edit.newText.toList.getLast? ≠ some '-') :
    ∃ tokens, tokenize (fix.apply source) = .ok tokens := by
  obtain ⟨-, rfl⟩ := edit?_eq_some_iff.1 hedit
  obtain ⟨hpiece, htag, hexchange⟩ := h.path.exists_tokenize_of_tag (hkind ▸ h.kind_mem)
  have hold : source.toList = textOf front ++ (name.toList ++ textOf back) := by
    rw [h.source_eq, hpiece, Piece.text_token]
  have hstart : token.start = byteLength (textOf front) := by
    rw [h.start_eq, hpiece]
    exact congrArg byteLength (List.append_nil _)
  have hstop : token.stop = token.start + byteLength name.toList := by
    rw [h.stop_eq, hpiece]
    rfl
  rw [Fix.apply_append hedits hold hstart hstop]
  simp only [CaseStyle.convertExact] at hlast ⊢
  split
  · rename_i hconverted
    rw [if_pos hconverted] at hlast
    refine hexchange (CaseStyle.isTagName_convert hconverted htag.chars ?_ hlast)
    -- Nothing is wrong with an empty name.
    intro hnil
    obtain rfl := String.toList_eq_nil_iff.1 hnil
    cases style <;> cases hcheck
  · obtain ⟨tokens, htokens⟩ := exists_tokenize_of_path h.path
    refine ⟨tokens, ?_⟩
    rw [← htokens, textOf_append, textOf_cons, ← hold, h.source_eq]

end PlacedToken.Over

/-! ### Fixes -/

/-- Whether a quote stands at a byte of a text, as it does where a quoted name starts. -/
def Text.isQuotedAt (text : List Char) (n : Nat) : Bool :=
  (splitAt? text n).any fun (_, rest) => rest.head? == some '"' || rest.head? == some '\''

/-- Whether a fix leaves a dash at the end of a name. -/
def Fix.leavesDash (fix : Fix) : Bool :=
  fix.edits.any fun edit => edit.newText.toList.getLast? == some '-'

theorem PlacedToken.Over.isQuotedAt_start {source : String} {front back : List Piece}
    {piece : Piece} {token : PlacedToken} (h : token.Over source front piece back)
    (hne : piece.written ≠ []) : isQuotedAt source.toList token.start =
      (piece.written.head? == some '"' || piece.written.head? == some '\'') := by
  obtain ⟨c, cs, hwritten⟩ := List.exists_cons_of_ne_nil hne
  have hsplit := splitAt?_append (textOf front ++ piece.skipped)
    (piece.written ++ (piece.behind ++ textOf back))
  rw [← h.start_eq] at hsplit
  have hsource : source.toList = textOf front ++ piece.skipped ++
      (piece.written ++ (piece.behind ++ textOf back)) := by
    rw [h.source_eq, Piece.text]
    simp only [List.append_assoc]
  rw [isQuotedAt, hsource, hsplit, hwritten]
  rfl

/-- The tokens and the elements of a block, which has none if it cannot be read. -/
theorem TokenStream.exists_placed (block : TemplateBlock) :
    ∃ placed : List PlacedToken, (ofBlock block).tokens = placed.toArray ∧
      (ofBlock block).tree = .build placed := by
  rw [ofBlock]
  split
  · exact ⟨_, rfl, rfl⟩
  · exact ⟨[], rfl, rfl⟩

theorem TokenStream.exists_over {source : String} {token : PlacedToken}
    (h : token ∈ (ofBlock (.bare source)).tokens) :
    ∃ front piece back, token.Over source front piece back := by
  rw [ofBlock] at h
  split at h
  · rename_i tokens htokens
    exact exists_over_of_tokenize htokens (List.mem_toArray.1 h)
  · exact absurd h (Array.not_mem_empty token)

/-- What a rule mends can be read again. -/
theorem Rule.Mends.exists_tokenize {ruleName source : String} {view : View} {start : Nat}
    {edit : Edit} {fix : Fix} (h : Mends ruleName view start edit) (hedits : fix.edits = [edit])
    (hstream : view.document.stream = .ofBlock (.bare source))
    (hroomy : ∀ token ∈ view.tokens, token.Roomy)
    (hquote : isQuotedAt source.toList start = false)
    (hdash : ruleName = (componentCasing {}).name → fix.leavesDash = false) :
    ∃ tokens, tokenize (fix.apply source) = .ok tokens := by
  have hover {token : PlacedToken} (htoken : token ∈ view.tokens) :
      ∃ front piece back, token.Over source front piece back := by
    rw [View.tokens, hstream] at htoken
    exact TokenStream.exists_over htoken
  cases h with
  | slots htoken hattribute hoffset hedit =>
    obtain ⟨front, piece, back, hover⟩ := hover htoken
    exact hover.tokenize_slots (hroomy _ htoken) hattribute hoffset hedit hedits
  | attributeName htoken hattribute hchecked hne hedit =>
    obtain ⟨front, piece, back, hover⟩ := hover htoken
    refine hover.tokenize_attributeName hattribute hchecked hne hedit hedits fun c hc => ?_
    obtain ⟨escaped, hat, -⟩ := hover.attributeAt hattribute
    rw [PlacedToken.nameRange_fst, hover.isQuotedAt_start hat.ne_nil, hc] at hquote
    simpa using hquote
  | elementName hname htoken helement hkind hcheck _ hedit =>
    obtain ⟨front, piece, back, hover⟩ := hover htoken
    obtain ⟨placed, htokens, htree⟩ := TokenStream.exists_placed (.bare source)
    have htag := View.kind_token_of_element? (by rw [View.tokens, hstream, htokens])
      (by rw [View.tree, hstream, htree]) helement hkind
    refine hover.tokenize_elementName htag hcheck hedit hedits ?_
    have hlast := hdash hname
    rw [Fix.leavesDash, hedits] at hlast
    simpa using hlast

/-- A fix that is reported is one edit of a rule that mends what it finds. -/
theorem Diagnostic.exists_mends {document : Document} {rules : List (Rule × Severity)}
    (hrules : ∀ entry ∈ rules, entry.1.BuiltIn) {text : List Char}
    (hblock : document.template.StandsIn text)
    (hroomy : ∀ token ∈ document.stream.tokens, token.Roomy) {diagnostic : Diagnostic}
    (h : diagnostic ∈ (Session.check document rules).diagnostics) {fix : Fix}
    (hfix : diagnostic.fix = some fix) :
    ∃ view edit, view.document = document ∧ fix.edits = [edit] ∧
      Rule.Mends diagnostic.ruleName view diagnostic.start edit := by
  rcases Session.ofBlock_or_ofToken_of_mem_check h with h | h
  · obtain ⟨entry, hentry, finding, hfinding, hdiagnostic⟩ := h
    obtain ⟨messageId, start, stop, rfl, -⟩ := (hrules entry hentry).findsBlock hfinding hblock
    cases hdiagnostic
    cases hfix
  · obtain ⟨view, hview, event, hevent, entry, hentry, finding, hfinding, hdiagnostic⟩ := h
    obtain ⟨rfl, htoken⟩ := Document.token_mem_of_mem_views hview
    have hfound := (hrules entry hentry).finds event view (View.ne_block_of_mem_events hevent)
      htoken hroomy finding hfinding
    cases hfound with
    | problem _ _ hmends =>
      cases hdiagnostic
      obtain ⟨edit, hedits, hmends⟩ := hmends fix hfix
      exact ⟨view, edit, rfl, hedits, hmends⟩
    | use name => cases hdiagnostic

/-- A template stays readable under the fixes of its diagnostics: with any of the rules that
    there are, a fix gives a template that can be read, unless the problem is one of a quoted
    name, or the name of a component would end in a dash. -/
theorem fixes_readable [Caching] (registry : Registry)
    (hrules : ∀ entry ∈ registry.rules, entry.1.BuiltIn) (source filename : String) :
    ∀ diagnostic ∈
        ((Linter.ofRegistry registry).lintTemplate .start source filename).1.diagnostics,
      ∀ fix ∈ diagnostic.fix, isQuotedAt source.toList diagnostic.start = false →
        (diagnostic.ruleName = (Rule.componentCasing {}).name → fix.leavesDash = false) →
        ∃ tokens, tokenize (fix.apply source) = .ok tokens := by
  intro diagnostic hdiagnostic fix hfix hquote hdash
  rw [Linter.lintTemplate_ofRegistry] at hdiagnostic
  have hstands := TemplateBlock.standsIn_bare source
  have hroomy : ∀ token ∈ (TokenStream.ofBlock (.bare source)).tokens, token.Roomy :=
    fun token hm => (TokenStream.inPlace_ofBlock hstands token hm).roomy
  obtain ⟨view, edit, hview, hedits, hmends⟩ := Diagnostic.exists_mends hrules hstands hroomy
    (List.mem_mergeSort.1 hdiagnostic) hfix
  refine hmends.exists_tokenize hedits ?_ ?_ hquote hdash
  · rw [hview]
    rfl
  · rw [View.tokens, hview]
    exact hroomy

/-- The name of a component behind a colon, with a character of two bytes in front. -/
theorem fixes_readable_colon :
    let registry : Registry :=
      ⟨[{ rule := .componentCasing { style := .kebab, registeredOnly := false } }]⟩
    let template := "li(a='é'): Foo_Bar.b"
    let result := ((Linter.ofRegistry registry).lintTemplate .start template "a.pug").1
    (∀ entry ∈ registry.rules, entry.1.BuiltIn) ∧
      (∀ diagnostic ∈ result.diagnostics,
        isQuotedAt template.toList diagnostic.start = false ∧
          ∀ fix ∈ diagnostic.fix, fix.leavesDash = false) ∧
      result.diagnostics.map (fun diagnostic => diagnostic.fix.map (·.apply template)) =
        [some "li(a='é'): foo-bar.b"] ∧
      ∀ diagnostic ∈ result.diagnostics, ∀ fix ∈ diagnostic.fix,
        ∃ tokens, tokenize (fix.apply template) = .ok tokens := by
  intro registry template result
  have hrules : ∀ entry ∈ registry.rules, entry.1.BuiltIn :=
    List.forall_mem_cons.2 ⟨.componentCasing _, nofun⟩
  have hplain : ∀ diagnostic ∈ result.diagnostics,
      isQuotedAt template.toList diagnostic.start = false ∧
        ∀ fix ∈ diagnostic.fix, fix.leavesDash = false := by
    decide +kernel
  refine ⟨hrules, hplain, by decide +kernel, fun diagnostic hdiagnostic fix hfix => ?_⟩
  obtain ⟨hquote, hdash⟩ := hplain diagnostic hdiagnostic
  exact fixes_readable registry hrules template "a.pug" diagnostic hdiagnostic fix hfix hquote
    fun _ => hdash fix hfix

/-- One of the fixes of a rule gives a text that cannot be read. -/
def Rule.Spoils (rule : Rule) (template spoiled : String) : Prop :=
  ∃ diagnostic ∈
      ((Linter.ofRegistry ⟨[{ rule }]⟩).lintTemplate .start template "a.pug").1.diagnostics,
    ∃ fix ∈ diagnostic.fix, fix.apply template = spoiled ∧ (tokenize spoiled).isOk = false

instance (rule : Rule) (template spoiled : String) : Decidable (rule.Spoils template spoiled) :=
  inferInstanceAs (Decidable (∃ _ ∈ _, _))

/-- Without the exceptions it fails: quotes that are cut apart open a string that does not end,
    and behind a name nothing can be done with a dash. -/
theorem fixes_unreadable :
    (let rule := Rule.attributeHyphenation .always []
     rule.BuiltIn ∧ rule.Spoils "x-y(\"fooBar=\")" "x-y(fooBar==\")") ∧
    let rule := Rule.componentCasing { style := .kebab, registeredOnly := false }
    rule.BuiltIn ∧ rule.Spoils "Foo_" "foo-" :=
  ⟨⟨.attributeHyphenation _ _, by decide +kernel⟩, .componentCasing _, by decide +kernel⟩

end PugLint
