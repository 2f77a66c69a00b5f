import PugLint.Proofs.Linter.Independence
import PugLint.Proofs.Placement
import PugLint.Proofs.Rule.Findings
import PugLint.Proofs.Tracker

/-!
# Diagnostics in the document

Rules find something within tokens, and tokens lie within the template; the
template block as a whole is reported from one of its tags to the other. So a
diagnostic never leaves the block that was checked, and an edit never leaves the
token that it changes.

* `PlacedToken.InPlace.roomy`: a token has room for what it says;
* `Diagnostic.StandsIn`: a diagnostic stands between two bytes of a document;
* `LintResult.Ranks`: a result lists what was reported in the order of the text;
* `diagnostics_inside`: the diagnostics of templates and components.
-/

namespace PugLint

/-! ### Tokens -/

theorem TokenKind.exists_of_attribute? {kind : TokenKind} {name : String} {value : Option String}
    (h : kind.attribute? = some (name, value)) :
    ∃ escaped, kind = .attribute name value escaped := by
  unfold attribute? at h
  split at h
  · cases h
    exact ⟨_, rfl⟩
  · cases h

/-- The value of an attribute is part of what is written. -/
theorem TokenKind.Written.byteLength_value_le {name value : String} {escaped : Bool}
    {written : List Char} (h : (TokenKind.attribute name (some value) escaped).Written written) :
    value.utf8ByteSize ≤ Text.byteLength written := by
  obtain ⟨shown, before, behind, -, -, -, rfl⟩ := h
  rw [Text.utf8ByteSize_eq, Text.byteLength_append]
  omega

/-- A token that is in place has room for what it says. -/
theorem PlacedToken.InPlace.roomy {document : List Char} {first last : Nat} {token : PlacedToken}
    (h : token.InPlace document first last) : token.Roomy where
  start_le_stop := h.start_le_stop
  value_le := by
    intro name value hvalue
    obtain ⟨written, hslice, hwritten⟩ := h.written
    have hbytes := Text.byteLength_of_slice? hslice
    obtain ⟨escaped, hkind⟩ := TokenKind.exists_of_attribute? hvalue
    rw [hkind] at hwritten
    have hle := hwritten.byteLength_value_le
    omega

/-- The tokens of a block that stands in a text are in place there. -/
theorem TokenStream.inPlace_ofBlock {text : List Char} {block : TemplateBlock}
    (h : block.StandsIn text) : ∀ token ∈ (ofBlock block).tokens,
      token.InPlace text block.offset (block.offset + Text.byteLength block.content.toList) := by
  intro token htoken
  rw [ofBlock] at htoken
  split at htoken
  · rename_i tokens htokens
    obtain ⟨before, behind, htext, hoffset, hline⟩ := h.content
    have hlaid : Laid (Position.first.after []) block.content.toList tokens :=
      laid_of_tokenize htokens
    rw [htext, hoffset]
    refine (Placement.placeFrom_of_laid hlaid (List.nil_append _).symm
      (Nat.le_refl (Text.byteLength before))).2 token ?_
    rw [← hline, ← hoffset]
    exact List.mem_toArray.1 htoken
  · exact absurd htoken (Array.not_mem_empty token)

/-! ### Reports -/

/-- At a token no rule is asked about the template block as a whole. -/
theorem View.ne_block_of_mem_events {view : View} {event : Event} (h : event ∈ view.events) :
    event ≠ .block := by
  rintro rfl
  rw [events, List.mem_append] at h
  rcases h with h | h
  · split at h <;> simp at h
  · unfold Event.ofKind? at h
    split at h <;> simp at h

/-- The token at hand is one of the tokens. -/
theorem Document.token_mem_of_mem_views {document : Document} {view : View}
    (h : view ∈ document.views) :
    view.document = document ∧ view.token ∈ document.stream.tokens := by
  rw [views_eq_map] at h
  obtain ⟨i, hi, rfl⟩ := List.mem_map.1 h
  refine ⟨rfl, ?_⟩
  have hsome := Array.getElem?_eq_getElem (List.mem_range.1 hi)
  simp only [View.token, View.token?, View.tokens, hsome, Option.getD_some]
  exact Array.getElem_mem _

namespace Diagnostic

/-- A diagnostic stands between two bytes of a document: its range lies there, its
    lines and columns are those of the range, and each edit of its fix lies within
    a single token. -/
structure StandsIn (document : Document) (first last : Nat) (diagnostic : Diagnostic) :
    Prop where
  first_le : first ≤ diagnostic.start
  start_le_stop : diagnostic.start ≤ diagnostic.stop
  stop_le : diagnostic.stop ≤ last
  start_eq : (diagnostic.location.line, diagnostic.location.column) =
    document.lines.position diagnostic.start
  stop_eq : (diagnostic.location.stopLine, diagnostic.location.stopColumn) =
    document.lines.position diagnostic.stop
  edits : ∀ fix, diagnostic.fix = some fix → ∀ edit ∈ fix.edits,
    ∃ token ∈ document.stream.tokens, token.Covers edit.start edit.stop

/-- One of the rules reports a diagnostic of a view, asked about an event. -/
def Reported (rules : List (Rule × Severity)) (view : View) (event : Event)
    (diagnostic : Diagnostic) : Prop :=
  ∃ entry ∈ rules, ∃ finding ∈ entry.1.check event view,
    (Reporter.ofRule entry.1.info entry.2).diagnostic? view.document.lines finding =
      some diagnostic

/-- A diagnostic comes from a rule that was asked at a token. -/
def OfToken (document : Document) (rules : List (Rule × Severity)) (diagnostic : Diagnostic) :
    Prop :=
  ∃ view ∈ document.views, ∃ event ∈ view.events, diagnostic.Reported rules view event

/-- A diagnostic comes from a rule that was asked about the template block. -/
def OfBlock (document : Document) (rules : List (Rule × Severity)) (diagnostic : Diagnostic) :
    Prop :=
  diagnostic.Reported rules document.blockView .block

variable {document : Document} {first last first' last' : Nat} {diagnostic : Diagnostic}

theorem StandsIn.mono (h : diagnostic.StandsIn document first last) (hfirst : first' ≤ first)
    (hlast : last ≤ last') : diagnostic.StandsIn document first' last' :=
  { h with
    first_le := Nat.le_trans hfirst h.first_le
    stop_le := Nat.le_trans h.stop_le hlast }

/-- The location of a reported problem is that of its range. -/
theorem standsIn_of_problem {reporter : Reporter} {messageId : String}
    {data : List (String × String)} {start stop : Nat} {fix : Option Fix}
    (h : reporter.diagnostic? document.lines (.problem messageId data start stop fix) =
      some diagnostic)
    (hfirst : first ≤ start) (hle : start ≤ stop) (hlast : stop ≤ last)
    (hedits : ∀ f, fix = some f → ∀ edit ∈ f.edits,
      ∃ token ∈ document.stream.tokens, token.Covers edit.start edit.stop) :
    diagnostic.StandsIn document first last := by
  cases h
  exact ⟨hfirst, hle, hlast, rfl, rfl, hedits⟩

/-- What rules report at a token lies where the tokens do. -/
theorem standsIn_of_ofToken {rules : List (Rule × Severity)}
    (hrules : ∀ entry ∈ rules, entry.1.BuiltIn)
    (htokens : ∀ token ∈ document.stream.tokens, token.Roomy ∧ first ≤ token.start ∧
      token.stop ≤ last)
    (h : diagnostic.OfToken document rules) : diagnostic.StandsIn document first last := by
  obtain ⟨view, hview, event, hevent, entry, hentry, finding, hfinding, hdiagnostic⟩ := h
  obtain ⟨rfl, htoken⟩ := Document.token_mem_of_mem_views hview
  have hfound := (hrules entry hentry).finds event view (View.ne_block_of_mem_events hevent)
    htoken (fun token hm => (htokens token hm).1) finding hfinding
  cases hfound with
  | problem hm hcovers hfix =>
    obtain ⟨-, hfirst, hlast⟩ := htokens _ hm
    refine standsIn_of_problem hdiagnostic (Nat.le_trans hfirst hcovers.first_le)
      hcovers.start_le_stop (Nat.le_trans hcovers.stop_le hlast) fun fix hf edit hedit => ?_
    obtain ⟨only, hedits, hmends⟩ := hfix fix hf
    rw [hedits] at hedit
    rw [List.mem_singleton.1 hedit]
    exact hmends.exists_covers
  | use name => cases hdiagnostic

/-- What rules report of a template block lies between its tags. -/
theorem standsIn_of_ofBlock {rules : List (Rule × Severity)}
    (hrules : ∀ entry ∈ rules, entry.1.BuiltIn) {text : List Char}
    (hblock : document.template.StandsIn text) (h : diagnostic.OfBlock document rules) :
    diagnostic.StandsIn document document.template.startTag.1 document.template.endTag.2 := by
  obtain ⟨entry, hentry, finding, hfinding, hdiagnostic⟩ := h
  obtain ⟨messageId, start, stop, rfl, hfirst, hle, hlast⟩ :=
    (hrules entry hentry).findsBlock hfinding hblock
  exact standsIn_of_problem hdiagnostic hfirst hle hlast nofun

end Diagnostic

namespace Session

variable {document : Document} {rules : List (Rule × Severity)}

theorem diagnostics_registerAll (session : Session) (rules : List (Rule × Severity)) :
    (session.registerAll rules).diagnostics = session.diagnostics := by
  induction rules generalizing session with
  | nil => rfl
  | cons entry rules ih =>
    rw [registerAll_cons, ih, register]
    split <;> rfl

/-- What is registered is one of the rules with its severity. -/
theorem mem_of_mem_registrations {session : Session} {registration : Registration}
    (h : registration ∈ (session.registerAll rules).registrations) :
    registration ∈ session.registrations ∨ (registration.rule, registration.severity) ∈ rules := by
  induction rules generalizing session with
  | nil => exact .inl h
  | cons entry rules ih =>
    obtain ⟨rule, severity⟩ := entry
    rw [registerAll_cons] at h
    rcases ih h with hm | hm
    · cases hc : session.contains rule.name with
      | true =>
        rw [register_of_contains hc] at hm
        exact .inl hm
      | false =>
        rw [register_of_not_contains hc] at hm
        rcases List.mem_append.1 hm with hm | hm
        · exact .inl hm
        · rw [List.mem_singleton.1 hm]
          exact .inr List.mem_cons_self
    · exact .inr (List.mem_cons_of_mem _ hm)

/-- What a checked session holds was reported of the block or at a token. -/
theorem ofBlock_or_ofToken_of_mem_check {diagnostic : Diagnostic}
    (h : diagnostic ∈ (check document rules).diagnostics) :
    diagnostic.OfBlock document rules ∨ diagnostic.OfToken document rules := by
  rw [check, diagnostics_run, diagnostics_registerAll, document_registerAll] at h
  obtain ⟨⟨reporter, finding⟩, hfinding, hdiagnostic⟩ := List.mem_filterMap.1 h
  have hentry {registration : Registration}
      (hm : registration ∈ ((start document).registerAll rules).pending) :
      (registration.rule, registration.severity) ∈ rules :=
    (mem_of_mem_registrations (List.mem_filter.1 hm).1).resolve_left List.not_mem_nil
  rcases List.mem_append.1 hfinding with hm | hm
  · obtain ⟨registration, hr, hm⟩ := List.mem_flatMap.1 hm
    obtain ⟨found, hf, hpair⟩ := List.mem_map.1 hm
    cases hpair
    exact .inl ⟨_, hentry hr, finding, hf, hdiagnostic⟩
  · obtain ⟨view, hview, hm⟩ := List.mem_flatMap.1 hm
    obtain ⟨registration, hr, hm⟩ := List.mem_flatMap.1 hm
    obtain ⟨found, hf, hpair⟩ := List.mem_map.1 hm
    cases hpair
    obtain ⟨event, hevent, hf⟩ := List.mem_flatMap.1 hf
    obtain ⟨rfl, -⟩ := Document.token_mem_of_mem_views hview
    exact .inr ⟨view, hview, event, hevent, _, hentry hr, finding, hf, hdiagnostic⟩

end Session

/-! ### Results -/

/-- A result lists what was reported by its starts, equal starts in the order of
    the report, and counts it by severity. -/
structure LintResult.Ranks (reports : List Diagnostic) (result : LintResult) : Prop where
  sorted : result.diagnostics.Pairwise fun a b => a.start ≤ b.start
  stable : ∀ start, result.diagnostics.filter (·.start == start) =
    reports.filter (·.start == start)
  errorCount_eq : result.errorCount =
    (result.diagnostics.filter (·.severity == .error)).length
  warningCount_eq : result.warningCount =
    (result.diagnostics.filter (·.severity == .warning)).length

/-- What is ranked ranks itself. -/
theorem LintResult.Ranks.self {reports : List Diagnostic} {result : LintResult}
    (h : result.Ranks reports) : result.Ranks result.diagnostics :=
  { h with stable := fun _ => rfl }

theorem LintResult.ranks_ofDiagnostics (filename : String) (reports : List Diagnostic)
    (used : List String) : (ofDiagnostics filename reports used).Ranks reports where
  sorted := by
    refine (List.pairwise_mergeSort (fun a b c hab hbc => ?_) (fun a b => ?_) reports).imp
      of_decide_eq_true
    · exact decide_eq_true (Nat.le_trans (of_decide_eq_true hab) (of_decide_eq_true hbc))
    · simpa using Nat.le_total a.start b.start
  stable := by
    intro start
    rw [ofDiagnostics, filter_sortedByStart]
    -- Diagnostics with equal starts are in order as they are.
    refine List.mergeSort_of_pairwise (List.pairwise_of_forall_mem_list fun a ha b hb => ?_)
    have ha := LawfulBEq.eq_of_beq (List.mem_filter.1 ha).2
    have hb := LawfulBEq.eq_of_beq (List.mem_filter.1 hb).2
    exact decide_eq_true (Nat.le_of_eq (ha.trans hb.symm))
  errorCount_eq := List.countP_eq_length_filter
  warningCount_eq := List.countP_eq_length_filter

namespace Linter

variable [ScriptParser] {registry : Registry} {mode : LintMode} {source : String}
  {block : TemplateBlock} {script : ScriptInfo}

/-- The block that a text is checked for stands in it. -/
theorem standsIn_of_block? (h : mode.block? source = some (block, script)) :
    block.StandsIn source.toList := by
  cases mode with
  | template =>
    cases h
    exact TemplateBlock.standsIn_bare source
  | component =>
    obtain ⟨parts, hparse, ht⟩ := LintMode.exists_parse_of_block? h
    exact Component.stands_of_parse hparse ht

variable [Caching]

/-- A component without a template block to check is told about its blocks at most. -/
theorem lintComponent_of_block?_eq_none (h : LintMode.component.block? source = none)
    (registry : Registry) (filename : String) :
    ∃ reports, ((ofRegistry registry).lintComponent .start source filename).1 =
        .ofDiagnostics filename reports [] ∧
      ∀ diagnostic ∈ reports, diagnostic.ruleName = environmentRule := by
  rw [LintMode.block?] at h
  split at h
  · rename_i parts hparse
    rw [Option.map_eq_none_iff] at h
    refine ⟨[], ?_, List.forall_mem_nil _⟩
    simp only [lintComponent, hparse, h]
    rfl
  · rename_i error hparse
    simp only [lintComponent, hparse]
    refine ⟨_, rfl, fun diagnostic hm => ?_⟩
    split at hm
    · rw [List.mem_singleton.1 hm]
      rfl
    · exact absurd hm List.not_mem_nil

/-- A check of a block: what was reported, ranked, stands between the tags of the
    block, and in its text if it was reported at a token. -/
theorem diagnostics_of_block? (hrules : ∀ entry ∈ registry.rules, entry.1.BuiltIn)
    (hblock : mode.block? source = some (block, script)) (filename : String) :
    let document := Document.ofStream source block script (.ofBlock block)
    let result := ((ofRegistry registry).lint .start mode source filename).1
    result.Ranks (Session.check document registry.rules).diagnostics ∧
      ∀ diagnostic ∈ result.diagnostics,
        diagnostic.StandsIn document block.startTag.1 block.endTag.2 ∧
          (diagnostic.OfToken document registry.rules →
            diagnostic.StandsIn document block.offset
              (block.offset + block.content.utf8ByteSize)) := by
  intro document result
  have hstands := standsIn_of_block? hblock
  have hresult : result =
      .ofDiagnostics filename (Session.check document registry.rules).diagnostics
        (Session.check document registry.rules).used := lint_ofRegistry registry hblock filename
  have htoken (diagnostic : Diagnostic) (h : diagnostic.OfToken document registry.rules) :
      diagnostic.StandsIn document block.offset (block.offset + block.content.utf8ByteSize) := by
    refine Diagnostic.standsIn_of_ofToken hrules (fun token hm => ?_) h
    have hplace := TokenStream.inPlace_ofBlock hstands token hm
    rw [Text.utf8ByteSize_eq]
    exact ⟨hplace.roomy, hplace.first_le, hplace.stop_le⟩
  rw [hresult]
  refine ⟨LintResult.ranks_ofDiagnostics _ _ _, fun diagnostic hm => ⟨?_, htoken diagnostic⟩⟩
  rcases Session.ofBlock_or_ofToken_of_mem_check (List.mem_mergeSort.1 hm) with h | h
  · exact Diagnostic.standsIn_of_ofBlock hrules hstands h
  · refine (htoken diagnostic h).mono hstands.startTag_le ?_
    rw [Text.utf8ByteSize_eq, ← hstands.endTag_eq]
    exact hstands.endTag_le

end Linter

/-- Diagnostics stay where they belong: those of a template in its text, those of a
    component between the tags of its template block, and in the text of the block
    if a rule was asked at a token. Each has the lines and columns of its range and
    edits that stay within one token; they are sorted by their starts, equal starts
    as they were reported, and counted by severity. A component without a template
    block to check has none but the one about its blocks. -/
theorem diagnostics_inside [Caching] [ScriptParser] (registry : Registry)
    (hrules : ∀ entry ∈ registry.rules, entry.1.BuiltIn) (source filename : String) :
    (let document := Document.ofStream source (.bare source) {} (.ofBlock (.bare source))
     let result := ((Linter.ofRegistry registry).lintTemplate .start source filename).1
     result.Ranks (Session.check document registry.rules).diagnostics ∧
       ∀ diagnostic ∈ result.diagnostics,
         diagnostic.StandsIn document 0 source.utf8ByteSize) ∧
    let result := ((Linter.ofRegistry registry).lintComponent .start source filename).1
    match LintMode.component.block? source with
    | some (block, script) =>
      let document := Document.ofStream source block script (.ofBlock block)
      result.Ranks (Session.check document registry.rules).diagnostics ∧
        ∀ diagnostic ∈ result.diagnostics,
          diagnostic.StandsIn document block.startTag.1 block.endTag.2 ∧
            (diagnostic.OfToken document registry.rules →
              diagnostic.StandsIn document block.offset
                (block.offset + block.content.utf8ByteSize))
    | none =>
      result.Ranks result.diagnostics ∧
        ∀ diagnostic ∈ result.diagnostics, diagnostic.ruleName = Linter.environmentRule := by
  refine ⟨?_, ?_⟩
  · obtain ⟨hranks, hstands⟩ := Linter.diagnostics_of_block? hrules
      (show LintMode.template.block? source = some (.bare source, {}) from rfl) filename
    exact ⟨hranks, fun diagnostic hm => (hstands diagnostic hm).1⟩
  · cases hblock : LintMode.component.block? source with
    | some found => exact Linter.diagnostics_of_block? hrules hblock filename
    | none =>
      obtain ⟨reports, hresult, hname⟩ := Linter.lintComponent_of_block?_eq_none hblock registry
        filename
      rw [hresult]
      exact ⟨(LintResult.ranks_ofDiagnostics _ _ _).self,
        fun diagnostic hm => hname diagnostic (List.mem_mergeSort.1 hm)⟩

-- A bare template has no script.
attribute [local instance] ScriptParser.never

/-- A use of the deprecated property behind a name of two bytes. -/
theorem diagnostics_inside_slots :
    let registry : Registry := ⟨[{ rule := .noScopedSlots }, { rule := .validRoot }]⟩
    let template := "a(é='' :b=\"$scopedSlots.x\")"
    let document := Document.ofStream template (.bare template) {} (.ofBlock (.bare template))
    let result := ((Linter.ofRegistry registry).lintTemplate .start template "a.pug").1
    (∀ entry ∈ registry.rules, entry.1.BuiltIn) ∧
      result.diagnostics.map (fun diagnostic => (diagnostic.start, diagnostic.stop)) =
        [(12, 24)] ∧
      ∀ diagnostic ∈ result.diagnostics,
        diagnostic.StandsIn document 0 template.utf8ByteSize := by
  intro registry template document result
  have hrules : ∀ entry ∈ registry.rules, entry.1.BuiltIn :=
    List.forall_mem_cons.2 ⟨.noScopedSlots, List.forall_mem_cons.2 ⟨.validRoot, nofun⟩⟩
  exact ⟨hrules, by decide +kernel, (diagnostics_inside registry hrules template "a.pug").1.2⟩

end PugLint
