import PugLint.Proofs.Session.Correspondence

/-!
# Templates in components

A template is checked the same way whether it stands alone or in a component. Its tokens are
the same ones further back, nothing around the template is asked for, and what is reported
moves with the text: by the bytes in front of the template, by the lines above it and, on its
first line, by the columns to its left.

* `Location.moved`, `Diagnostic.moved`: what is reported, further back in a document;
* `LineIndex.position_embedded`: the lines and columns of a text that stands in a document;
* `Placement.forall₂_placeFrom`: the tokens of a text that stands in a document;
* `lintComponent_embedded`: a component is checked like its template, moved.
-/

namespace PugLint

/-- A location of a text that stands in a document, as a location of the document. -/
def Location.moved (lines columns : Nat) (location : Location) : Location where
  line := location.line + lines
  column := if location.line = 1 then location.column + columns else location.column
  stopLine := location.stopLine + lines
  stopColumn := if location.stopLine = 1 then location.stopColumn + columns else location.stopColumn

/-- A diagnostic of a text that stands in a document, as a diagnostic of the document. -/
def Diagnostic.moved (offset lines columns : Nat) (diagnostic : Diagnostic) : Diagnostic :=
  { diagnostic with
    start := diagnostic.start + offset
    stop := diagnostic.stop + offset
    location := diagnostic.location.moved lines columns
    fix := diagnostic.fix.map (Fix.moved (· + offset)) }

/-! ### Lines and columns -/

namespace LineIndex

open Text

theorem startsFrom_eq_map (offset : Nat) (text : List Char) :
    startsFrom offset text = (startsFrom 0 text).map (offset + ·) := by
  have hadd (n : Nat) : startsFrom (offset + n) text = (startsFrom n text).map (offset + ·) := by
    induction text generalizing n with
    | nil => rfl
    | cons c text ih =>
      rw [startsFrom, startsFrom, Nat.add_assoc, ih]
      split <;> rfl
  exact hadd 0

/-- The lines that start up to a place of a text that stands in a document: those above the
    text, and those of the text. -/
theorem takeWhile_laterStarts (before text behind : List Char) {n : Nat}
    (hn : n ≤ byteLength text) :
    (ofText (before ++ text ++ behind)).laterStarts.takeWhile (· ≤ byteLength before + n) =
      startsFrom 0 before ++
        ((ofText text).laterStarts.takeWhile (· ≤ n)).map (byteLength before + ·) := by
  have hbefore : ∀ s ∈ startsFrom 0 before, decide (s ≤ byteLength before + n) = true := by
    intro s hs
    have := bounds_of_mem_startsFrom hs
    simp only [decide_eq_true_eq]
    omega
  have hbehind : (startsFrom (byteLength (before ++ text)) behind).takeWhile
      (· ≤ byteLength before + n) = [] := by
    cases h : startsFrom (byteLength (before ++ text)) behind with
    | nil => rfl
    | cons s ss =>
      have := bounds_of_mem_startsFrom (h ▸ List.mem_cons_self : s ∈ startsFrom _ behind)
      rw [byteLength_append] at this
      rw [List.takeWhile_cons_of_neg]
      simp only [decide_eq_true_eq]
      omega
  have hcut {starts : List Nat} :
      (starts ++ startsFrom (byteLength (before ++ text)) behind).takeWhile
        (· ≤ byteLength before + n) = starts.takeWhile (· ≤ byteLength before + n) := by
    rw [List.takeWhile_append, hbehind]
    split
    · rename_i hall
      rw [List.append_nil]
      exact ((List.takeWhile_prefix _).eq_of_length hall).symm
    · rfl
  have hplace : ((· ≤ byteLength before + n) : Nat → Bool) ∘ (byteLength before + ·) =
      fun s => decide (s ≤ n) := by
    funext s
    simp
  rw [ofText, ofText, startsFrom_append, startsFrom_append, Nat.zero_add, Nat.zero_add, hcut,
    List.takeWhile_append_of_pos hbefore, startsFrom_eq_map (byteLength before) text,
    List.takeWhile_map, hplace]

theorem lastStart_le (text : List Char) : lastStart text ≤ byteLength text := by
  rw [lastStart]
  cases h : (startsFrom 0 text).getLast? with
  | none => exact Nat.zero_le _
  | some s =>
    have := bounds_of_mem_startsFrom (List.mem_of_getLast? h)
    simp only [Option.getD_some]
    omega

/-- The column behind the first part of a text. -/
theorem position_behind (before behind : List Char) :
    ((ofText (before ++ behind)).position (byteLength before)).2 =
      byteLength before - lastStart before := by
  have := lastStart_add_column before
  rw [position_append]
  simp only
  omega

/-- A place of a text that stands in a document is on its line further down, and on the first
    line as many columns to the right as the text itself. -/
theorem position_embedded (before text behind : List Char) {n : Nat} (hn : n ≤ byteLength text) :
    (ofText (before ++ text ++ behind)).position (byteLength before + n) =
      (((ofText text).position n).1 + before.count '\n',
        if ((ofText text).position n).1 = 1 then
          ((ofText text).position n).2 +
            ((ofText (before ++ text ++ behind)).position (byteLength before)).2
        else ((ofText text).position n).2) := by
  have hsize : min (byteLength before + n) (ofText (before ++ text ++ behind)).size =
      byteLength before + n := by
    simp only [ofText, byteLength_append]
    omega
  have hsize' : min n (ofText text).size = n := Nat.min_eq_left hn
  have hfirst := lastStart_le before
  rw [List.append_assoc, position_behind, ← List.append_assoc, position, position, hsize, hsize',
    takeWhile_laterStarts before text behind hn]
  rw [lastStart] at hfirst ⊢
  rcases List.eq_nil_or_concat ((ofText text).laterStarts.takeWhile (· ≤ n)) with
    h | ⟨starts, last, h⟩
  · -- On the first line of the text, which starts where the line around it does.
    rw [h]
    refine Prod.ext ?_ ?_
    · simp [length_startsFrom, Nat.add_comm]
    · simp
      omega
  · -- On a later line, which starts within the text.
    rw [h]
    refine Prod.ext ?_ ?_
    · simp [length_startsFrom]
      omega
    · simp
      omega

/-- The location of a range of a text that stands in a document. -/
theorem location_embedded (before text behind : List Char) {start stop : Nat}
    (hstart : start ≤ stop) (hstop : stop ≤ byteLength text) :
    (ofText (before ++ text ++ behind)).location (byteLength before + start)
        (byteLength before + stop) =
      ((ofText text).location start stop).moved (before.count '\n')
        ((ofText (before ++ text ++ behind)).position (byteLength before)).2 := by
  simp only [location, position_embedded before text behind (Nat.le_trans hstart hstop),
    position_embedded before text behind hstop, Location.moved]
  rfl

end LineIndex

/-! ### Tokens -/

/-- The tokens of a text are placed in a document as they are placed in the text, further
    back. -/
theorem Placement.forall₂_placeFrom (index : LineIndex) (offset line line' cursor : Nat)
    (tokens : List Token) :
    List.Forall₂ (PlacedToken.Shifted (· + offset) offset) (placeFrom index 0 line cursor tokens)
      (placeFrom index offset line' (cursor + offset) tokens) := by
  induction tokens generalizing cursor with
  | nil => exact .nil
  | cons token tokens ih =>
    have hshifted : PlacedToken.Shifted (· + offset) offset (placeAfter index 0 line cursor token)
        (placeAfter index offset line' (cursor + offset) token) := by
      refine ⟨rfl, ?_, ?_, fun _ _ _ => rfl⟩
      · simp only [placeAfter]
        split
        · simp only
          omega
        · simp only
          omega
      · simp only [placeAfter]
        split
        · simp only
          split <;> split <;> omega
        · simp only
          split <;> split <;> omega
    rw [placeFrom, placeFrom, hshifted.start_eq]
    exact .cons hshifted (ih _)

/-- A template alone and the same template in a document, without scripts. -/
theorem Document.counterpart_embedded (source : String) (block : TemplateBlock) :
    (Document.ofStream block.content (.bare block.content) {}
      (.ofBlock (.bare block.content))).Counterpart (· + block.offset) True
      (Document.ofStream source block {} (.ofBlock block)) := by
  have hroomy (token : PlacedToken)
      (hm : token ∈ (TokenStream.ofBlock (.bare block.content)).tokens) : token.Roomy :=
    (TokenStream.inPlace_ofBlock (TemplateBlock.standsIn_bare block.content) token hm).roomy
  cases htokens : tokenize block.content with
  | error fault =>
    have hempty (block' : TemplateBlock) (hcontent : block'.content = block.content) :
        TokenStream.ofBlock block' = ⟨#[], ⟨#[], #[]⟩, true⟩ := by
      rw [TokenStream.ofBlock, hcontent, htokens]
    refine ⟨fun i => ?_, ?_, rfl⟩
    · simp only [ofStream, hempty block rfl, hempty (.bare block.content) rfl]
      exact .none
    · simp only [ofStream, hempty block rfl, hempty (.bare block.content) rfl]
  | ok tokens =>
    have hplaced (block' : TemplateBlock) (hcontent : block'.content = block.content) :
        TokenStream.ofBlock block' =
          ⟨(placeTokens tokens block.content.toList block'.offset block'.line).toArray,
            .build (placeTokens tokens block.content.toList block'.offset block'.line), false⟩ := by
      rw [TokenStream.ofBlock, hcontent, htokens]
    have hshifted := Placement.forall₂_placeFrom (LineIndex.ofText block.content.toList)
      block.offset 1 block.line 0 tokens
    rw [Nat.zero_add] at hshifted
    rw [hplaced (.bare block.content) rfl] at hroomy
    refine ⟨fun i => ?_, ?_, rfl⟩
    · simp only [ofStream, hplaced block rfl, hplaced (.bare block.content) rfl,
        List.getElem?_toArray]
      change Option.Rel _
        (Placement.placeFrom (LineIndex.ofText block.content.toList) 0 1 0 tokens)[i]?
        (Placement.placeFrom (LineIndex.ofText block.content.toList) block.offset block.line
          block.offset tokens)[i]?
      obtain ⟨hnone, hnone'⟩ | ⟨token, token', hsome, hsome', htoken⟩ :=
        cases_of_rel (rel_getElem? hshifted i)
      · rw [hnone, hnone']
        exact .none
      · have hm := hroomy token (List.mem_toArray.2 (List.mem_of_getElem? hsome))
        rw [hsome, hsome']
        exact .some (.shifted block.offset hm htoken)
    · simp only [ofStream, hplaced block rfl, hplaced (.bare block.content) rfl,
        ElementTree.build, map_kind_placeTokens]

/-! ### Results -/

/-- A diagnostic of a text and its counterpart in a document in which the text stands. -/
theorem Diagnostic.Counterpart.eq_moved {before text behind : List Char}
    {diagnostic diagnostic' : Diagnostic}
    (h : diagnostic.Counterpart (· + Text.byteLength before) True (LineIndex.ofText text)
      (LineIndex.ofText (before ++ text ++ behind)) diagnostic')
    (hstart : diagnostic.start ≤ diagnostic.stop) (hstop : diagnostic.stop ≤ Text.byteLength text) :
    diagnostic' = diagnostic.moved (Text.byteLength before) (before.count '\n')
      ((LineIndex.ofText (before ++ text ++ behind)).position (Text.byteLength before)).2 := by
  have hlocation : diagnostic'.location = diagnostic.location.moved (before.count '\n')
      ((LineIndex.ofText (before ++ text ++ behind)).position (Text.byteLength before)).2 := by
    rw [h.location_eq', h.location_eq,
      ← LineIndex.location_embedded before text behind hstart hstop, h.start_eq, h.stop_eq,
      Nat.add_comm, Nat.add_comm diagnostic.stop]
  have hmessage := h.message_eq trivial
  have hfix := h.fix_eq trivial
  obtain ⟨ruleName, severity, messageId, message, start, stop, location, fix⟩ := diagnostic'
  obtain ⟨hname, hseverity, hid, -, hfirst, hlast, -, -, -⟩ := h
  dsimp only at hname hseverity hid hmessage hfirst hlast hlocation hfix
  rw [hname, hseverity, hid, hmessage, hfirst, hlast, hlocation, hfix]
  rfl

theorem Registry.name_ne_of_contains {registry : Registry} {name : String}
    (h : registry.contains name = false) {entry : Rule × Severity}
    (hentry : entry ∈ registry.rules) : entry.1.name ≠ name := by
  rintro rfl
  obtain ⟨registered, hm, rfl⟩ := List.mem_map.1 hentry
  rw [contains, List.any_eq_false] at h
  exact h registered hm (beq_self_eq_true _)

/-- What is reported of a template alone and of the same template in a document. -/
theorem Registry.forall₂_check_embedded {registry : Registry}
    (hrules : ∀ entry ∈ registry.rules, entry.1.BuiltIn)
    (hroot : registry.contains Rule.validRoot.name = false) (source : String)
    (block : TemplateBlock) :
    List.Forall₂
      (Diagnostic.Counterpart (· + block.offset) True (LineIndex.ofText block.content.toList)
        (LineIndex.ofText source.toList))
      (registry.check block.content (.bare block.content) {}).diagnostics
      (registry.check source block {}).diagnostics := by
  have hdocument := Document.counterpart_embedded source block
  refine Session.forall₂_check hdocument (fun entry hentry => ?_) fun entry hentry i hi => ?_
  · have hcheck := (hrules entry hentry).check_block.resolve_left fun heq =>
      name_ne_of_contains hroot hentry (congrArg Rule.name heq)
    rw [hcheck, hcheck]
    exact .nil
  · have hview := hdocument.viewAt hi
    exact (hrules entry hentry).corresponds hview (fun _ => hview.slotsApart trivial)
      fun _ => hview.listenersApart trivial

/-- A component without scripts is checked like its template: what is reported is the same, in
    the same order, moved to where the template stands. The template block as a whole is not
    asked about. -/
theorem lintComponent_embedded [Caching] [ScriptParser] (registry : Registry)
    (hrules : ∀ entry ∈ registry.rules, entry.1.BuiltIn)
    (hroot : registry.contains Rule.validRoot.name = false) {source : String}
    {component : Component} {block : TemplateBlock}
    (hparse : Component.parse source = .ok component) (hblock : component.template = some block)
    (hpug : block.isPug = true) (hscripts : component.scripts = []) (filename filename' : String) :
    ((Linter.ofRegistry registry).lintComponent .start source filename).1.diagnostics =
      ((Linter.ofRegistry registry).lintTemplate .start block.content filename').1.diagnostics.map
        (Diagnostic.moved block.offset (block.line - 1)
          ((LineIndex.ofText source.toList).position block.offset).2) := by
  have hinside : LintMode.component.block? source = some (block, {}) := by
    rw [LintMode.block?, hparse]
    simp only [hblock, hscripts, Option.filter_some, hpug]
    rfl
  have halone : LintMode.template.block? block.content = some (.bare block.content, {}) := rfl
  have hresult := Linter.lintTemplate_ofRegistry registry block.content filename'
  have hresult' : ((Linter.ofRegistry registry).lintComponent .start source filename).1 = _ :=
    Linter.lint_ofRegistry registry hinside filename
  have hstands := (Linter.diagnostics_of_block? hrules halone filename').2
  have hcounterparts := LintResult.forall₂_ofDiagnostics
    (fun _ _ hlt => Nat.add_lt_add_right hlt block.offset)
    (Registry.forall₂_check_embedded hrules hroot source block) filename' filename
    (registry.check block.content (.bare block.content) {}).used
    (registry.check source block {}).used
  rw [← hresult, ← hresult'] at hcounterparts
  obtain ⟨before, behind, hsource, hoffset, hline⟩ :=
    (Component.stands_of_parse hparse hblock).content
  have hlines : block.line - 1 = before.count '\n' := by omega
  rw [hsource, hoffset] at hcounterparts
  rw [hsource, hoffset, hlines]
  symm
  rw [← List.forall₂_eq_eq_eq, List.forall₂_map_left_iff]
  refine ((List.forall₂_and_left _ _).2 ⟨hstands, hcounterparts⟩).imp ?_
  rintro diagnostic diagnostic' ⟨⟨hstand, -⟩, hcounterpart⟩
  refine (hcounterpart.eq_moved hstand.start_le_stop ?_).symm
  rw [← Text.utf8ByteSize_eq]
  exact hstand.stop_le

/-- A template with a problem on its first line, which starts behind the tag. -/
def embeddedBlock : TemplateBlock where
  content := "a(:b=\"$scopedSlots.x\")\n  b"
  offset := 22
  line := 2
  hasSource := false
  lang := some "pug"
  startTag := (1, 22)
  endTag := (48, 59)

-- The component has no script.
attribute [local instance] ScriptParser.never

theorem lintComponent_embedded_slots :
    let registry : Registry := ⟨[{ rule := .noScopedSlots }, { rule := .thisInTemplate .never }]⟩
    let source := "\n<template lang=\"pug\">" ++ embeddedBlock.content ++ "</template>"
    let inside := ((Linter.ofRegistry registry).lintComponent .start source "a.vue").1.diagnostics
    let alone := ((Linter.ofRegistry registry).lintTemplate .start embeddedBlock.content
      "a.pug").1.diagnostics
    (∀ entry ∈ registry.rules, entry.1.BuiltIn) ∧
      registry.contains Rule.validRoot.name = false ∧
      Component.parse source = .ok ⟨some embeddedBlock, []⟩ ∧
      alone.map (fun diagnostic => (diagnostic.start, diagnostic.location)) =
        [(6, ⟨1, 6, 1, 18⟩)] ∧
      inside.map (fun diagnostic => (diagnostic.start, diagnostic.location)) =
        [(28, ⟨2, 27, 2, 39⟩)] ∧
      inside = alone.map (Diagnostic.moved 22 1 21) := by
  intro registry source inside alone
  have hrules : ∀ entry ∈ registry.rules, entry.1.BuiltIn :=
    List.forall_mem_cons.2 ⟨.noScopedSlots, List.forall_mem_cons.2 ⟨.thisInTemplate .never, nofun⟩⟩
  have hparse : Component.parse source = .ok ⟨some embeddedBlock, []⟩ := by decide +kernel
  refine ⟨hrules, by decide, hparse, by decide +kernel, by decide +kernel, ?_⟩
  have hcolumn : ((LineIndex.ofText source.toList).position embeddedBlock.offset).2 = 21 := by
    decide +kernel
  have h := lintComponent_embedded registry hrules (by decide) hparse rfl (by decide) rfl "a.vue"
    "a.pug"
  rwa [hcolumn] at h

end PugLint
