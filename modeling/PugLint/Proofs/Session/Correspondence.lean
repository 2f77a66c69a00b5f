import Mathlib.Order.Monotone.Basic
import PugLint.Proofs.Linter.Ranges
import PugLint.Proofs.Rule.Correspondence

/-!
# Checks of counterparts

A document and its counterpart are checked alike: what is known at each token is the same, so
the rules are asked the same things in the same order, and what they report corresponds one by
one. If places keep their order when they move, the results list it in the same order too.

* `Document.Counterpart`: a document and its counterpart;
* `Trackers.behind_eq`: what is known at each token is the same;
* `Diagnostic.Counterpart`, `Session.forall₂_check`: the diagnostics of a check;
* `LintResult.forall₂_ofDiagnostics`: the diagnostics of a result.
-/

namespace PugLint

variable {move : Nat → Nat} {verbatim : Prop}

/-- A document and its counterpart: tokens correspond, elements and scripts are the same. -/
structure Document.Counterpart (move : Nat → Nat) (verbatim : Prop)
    (document document' : Document) : Prop where
  token? : ∀ i : Nat, Option.Rel (PlacedToken.Counterpart move verbatim)
    document.stream.tokens[i]? document'.stream.tokens[i]?
  tree_eq : document'.stream.tree = document.stream.tree
  script_eq : document'.script = document.script

/-! ### What is known -/

namespace PlacedToken.Counterpart

variable {token token' : PlacedToken} (h : token.Counterpart move verbatim token')

include h

/-- What does not depend on the names of attributes is the same at counterparts. -/
theorem kind_congr {α : Type} {f : TokenKind → α}
    (hf : ∀ name name' value escaped,
      f (.attribute name' value escaped) = f (.attribute name value escaped)) :
    f token'.kind = f token.kind := by
  cases h with
  | shifted n _ h => rw [h.kind_eq]
  | respelled shorthand rest _ h =>
    obtain ⟨value, escaped, hkind, hkind'⟩ := h.kind_eq
    rw [hkind, hkind']
    exact hf _ _ _ _

/-- Counterparts change alike what is known. -/
theorem afterToken_eq (trackers : Trackers) (i : Nat) :
    trackers.afterToken i token'.kind = trackers.afterToken i token.kind :=
  h.kind_congr fun _ _ _ _ => rfl

theorem ofKind?_eq : Event.ofKind? token'.kind = Event.ofKind? token.kind :=
  h.kind_congr fun _ _ _ _ => rfl

end PlacedToken.Counterpart

/-- A listed attribute and its counterpart: the same number and value. -/
def AttributeCounterpart (verbatim : Prop) (entry entry' : Nat × String × Option String) : Prop :=
  entry'.1 = entry.1 ∧ Spelled verbatim entry.2.1 entry'.2.1 ∧ entry'.2.2 = entry.2.2

/-- The part of an element in a chain depends on the directives that its attributes are. -/
theorem Conditional.ofAttributesFrom_eq {entries entries' : List (Nat × String × Option String)}
    (h : List.Forall₂ (AttributeCounterpart verbatim) entries entries') (found : Conditional) :
    ofAttributesFrom found entries' = ofAttributesFrom found entries := by
  induction h generalizing found with
  | nil => rfl
  | @cons entry entry' entries entries' hentry _ ih =>
    obtain ⟨token, name, value⟩ := entry
    obtain ⟨token', name', value'⟩ := entry'
    obtain ⟨rfl, hspelled, rfl⟩ := hentry
    dsimp only at hspelled
    simp only [ofAttributesFrom, hspelled.map_name_parse?, ih]

namespace Document.Counterpart

variable {document document' : Document} (h : document.Counterpart move verbatim document')

include h

theorem size_eq : document'.stream.tokens.size = document.stream.tokens.size := by
  have hlt (i : Nat) : i < document'.stream.tokens.size ↔ i < document.stream.tokens.size := by
    obtain ⟨hnone, hnone'⟩ | ⟨_, _, hsome, hsome', -⟩ := cases_of_rel (h.token? i)
    · rw [Array.getElem?_eq_none_iff] at hnone hnone'
      omega
    · have := (Array.getElem?_eq_some_iff.1 hsome).1
      have := (Array.getElem?_eq_some_iff.1 hsome').1
      omega
  have hle := hlt document.stream.tokens.size
  have hge := hlt document'.stream.tokens.size
  omega

theorem ofTokens_eq (attributes : List Nat) :
    Conditional.ofTokens document'.stream.tokens attributes =
      Conditional.ofTokens document.stream.tokens attributes := by
  suffices hentry : ∀ i ∈ attributes, Option.Rel (AttributeCounterpart verbatim)
      ((document.stream.tokens[i]?.bind PlacedToken.attribute?).map
        fun found => (i, found))
      ((document'.stream.tokens[i]?.bind PlacedToken.attribute?).map
        fun found => (i, found)) from
    Conditional.ofAttributesFrom_eq (forall₂_filterMap hentry) .plain
  intro i _
  obtain ⟨hnone, hnone'⟩ | ⟨_, _, hsome, hsome', htoken⟩ := cases_of_rel (h.token? i)
  · rw [hnone, hnone']
    exact .none
  · rw [hsome, hsome', Option.bind_some, Option.bind_some]
    obtain ⟨hnone, hnone'⟩ | ⟨_, _, _, hvalue, hvalue', hspelled⟩ := htoken.attribute?
    · rw [hnone, hnone']
      exact .none
    · rw [hvalue, hvalue']
      exact .some ⟨rfl, hspelled, rfl⟩

theorem update_eq (trackers : Trackers) (i : Nat) :
    trackers.update document'.stream.tokens document'.stream.tree i =
      trackers.update document.stream.tokens document.stream.tree i := by
  have hafter : trackers.afterToken i
        ((document'.stream.tokens[i]?.map PlacedToken.kind).getD .eos) =
      trackers.afterToken i ((document.stream.tokens[i]?.map PlacedToken.kind).getD .eos) := by
    obtain ⟨hnone, hnone'⟩ | ⟨_, _, hsome, hsome', htoken⟩ := cases_of_rel (h.token? i)
    · rw [hnone, hnone']
    · rw [hsome, hsome']
      exact htoken.afterToken_eq trackers i
  simp only [Trackers.update, hafter, h.tree_eq, h.ofTokens_eq]

/-- What is known behind the first tokens. -/
theorem behind_eq (n : Nat) :
    Trackers.behind document'.stream.tokens document'.stream.tree n =
      Trackers.behind document.stream.tokens document.stream.tree n := by
  induction n with
  | zero => rfl
  | succ n ih => rw [Trackers.behind, Trackers.behind, h.update_eq, ih]

end Document.Counterpart

/-- What rules see at a token of a document. -/
def Document.viewAt (document : Document) (i : Nat) : View :=
  ⟨document, .behind document.stream.tokens document.stream.tree (i + 1), i⟩

theorem Document.views_eq (document : Document) :
    document.views = (List.range document.stream.tokens.size).map document.viewAt :=
  document.views_eq_map

namespace Document.Counterpart

variable {document document' : Document} (h : document.Counterpart move verbatim document')

include h

theorem viewAt {i : Nat} (hi : i < document.stream.tokens.size) :
    (document.viewAt i).Counterpart move verbatim (document'.viewAt i) where
  token? := h.token?
  tree_eq := h.tree_eq
  script_eq := h.script_eq
  trackers_eq := h.behind_eq (i + 1)
  index_eq := rfl
  index_lt := hi

theorem events_eq {i : Nat} (hi : i < document.stream.tokens.size) :
    (document'.viewAt i).events = (document.viewAt i).events := by
  have hview := h.viewAt hi
  rw [View.events, View.events, hview.tree_eq, hview.index_eq, hview.token.ofKind?_eq]

/-- A rule finds counterparts at each token. -/
theorem findingsAt {i : Nat} (hi : i < document.stream.tokens.size) {rule : Rule}
    (hrule : Rule.Corresponds move verbatim (document.viewAt i) (document'.viewAt i) rule.check) :
    Correspond move verbatim (rule.findingsAt (document.viewAt i))
      (rule.findingsAt (document'.viewAt i)) := by
  rw [Rule.findingsAt, Rule.findingsAt, h.events_eq hi]
  exact forall₂_flatMap fun event hevent => hrule event (View.ne_block_of_mem_events hevent)

end Document.Counterpart

/-! ### Reports -/

/-- A diagnostic and its counterpart: the same rule, severity and message at moved places, each
    with the lines and columns of its own document. -/
structure Diagnostic.Counterpart (move : Nat → Nat) (verbatim : Prop) (lines lines' : LineIndex)
    (diagnostic diagnostic' : Diagnostic) : Prop where
  ruleName_eq : diagnostic'.ruleName = diagnostic.ruleName
  severity_eq : diagnostic'.severity = diagnostic.severity
  messageId_eq : diagnostic'.messageId = diagnostic.messageId
  message_eq : verbatim → diagnostic'.message = diagnostic.message
  start_eq : diagnostic'.start = move diagnostic.start
  stop_eq : diagnostic'.stop = move diagnostic.stop
  fix_eq : verbatim → diagnostic'.fix = diagnostic.fix.map (Fix.moved move)
  location_eq : diagnostic.location = lines.location diagnostic.start diagnostic.stop
  location_eq' : diagnostic'.location = lines'.location diagnostic'.start diagnostic'.stop

/-- A finding and its counterpart are reported as counterparts. -/
theorem Finding.Counterpart.diagnostic? {finding finding' : Finding}
    (h : finding.Counterpart move verbatim finding') (reporter : Reporter)
    (lines lines' : LineIndex) :
    Option.Rel (Diagnostic.Counterpart move verbatim lines lines')
      (reporter.diagnostic? lines finding) (reporter.diagnostic? lines' finding') := by
  cases h with
  | problem hdata hfix =>
    refine .some ⟨rfl, rfl, rfl, fun hverbatim => ?_, rfl, rfl, hfix, rfl, rfl⟩
    rw [hdata hverbatim]
    rfl
  | use name => exact .none

namespace Session

/-- Which rules are registered does not depend on the document. -/
theorem registrations_registerAll {session session' : Session}
    (h : session'.registrations = session.registrations) (rules : List (Rule × Severity)) :
    (session'.registerAll rules).registrations = (session.registerAll rules).registrations := by
  induction rules generalizing session session' with
  | nil => exact h
  | cons entry rules ih =>
    obtain ⟨rule, severity⟩ := entry
    rw [registerAll_cons, registerAll_cons]
    refine ih ?_
    have hcontains : session'.contains rule.name = session.contains rule.name := by
      rw [contains, contains, h]
    rw [register, register, hcontains]
    split
    · exact h
    · simp only [h]

/-- Checks of two documents with the same rules ask the same ones of them. -/
theorem exists_reported (document document' : Document) (rules : List (Rule × Severity)) :
    ∃ registrations : List Registration,
      (∀ registration ∈ registrations, (registration.rule, registration.severity) ∈ rules) ∧
      (check document rules).diagnostics = reported document registrations ∧
      (check document' rules).diagnostics = reported document' registrations := by
  have hregistrations : ((start document').registerAll rules).registrations =
      ((start document).registerAll rules).registrations :=
    registrations_registerAll (by rfl) rules
  have hpending : ((start document').registerAll rules).pending =
      ((start document).registerAll rules).pending := by
    rw [pending, pending, hregistrations]
  refine ⟨((start document).registerAll rules).pending, fun registration hm => ?_, ?_, ?_⟩
  · exact (mem_of_mem_registrations (List.mem_filter.1 hm).1).resolve_left List.not_mem_nil
  · rw [check, diagnostics_run, diagnostics_registerAll, document_registerAll]
    rfl
  · rw [check, diagnostics_run, diagnostics_registerAll, document_registerAll, hpending]
    rfl

variable {document document' : Document}

/-- What rules that find counterparts at counterparts report in a pass. -/
theorem forall₂_reported (h : document.Counterpart move verbatim document')
    {registrations : List Registration}
    (hblock : ∀ registration ∈ registrations, Correspond move verbatim
      (registration.rule.check .block document.blockView)
      (registration.rule.check .block document'.blockView))
    (hviews : ∀ registration ∈ registrations, ∀ i < document.stream.tokens.size,
      Rule.Corresponds move verbatim (document.viewAt i) (document'.viewAt i)
        registration.rule.check) :
    List.Forall₂ (Diagnostic.Counterpart move verbatim document.lines document'.lines)
      (reported document registrations) (reported document' registrations) := by
  -- At every place one rule after the other is asked, on both sides.
  have hplace (found found' : Registration → List Finding)
      (hfound : ∀ registration ∈ registrations,
        Correspond move verbatim (found registration) (found' registration)) :
      List.Forall₂ (Diagnostic.Counterpart move verbatim document.lines document'.lines)
        ((registrations.flatMap fun registration =>
          (found registration).map (registration.reporter, ·)).filterMap
            fun entry => entry.1.diagnostic? document.lines entry.2)
        ((registrations.flatMap fun registration =>
          (found' registration).map (registration.reporter, ·)).filterMap
            fun entry => entry.1.diagnostic? document'.lines entry.2) := by
    clear hblock hviews
    induction registrations with
    | nil => exact .nil
    | cons registration registrations ih =>
      rw [List.flatMap_cons, List.flatMap_cons, List.filterMap_append, List.filterMap_append,
        List.filterMap_map, List.filterMap_map]
      refine List.rel_append ?_ (ih fun other hm => hfound other (List.mem_cons_of_mem _ hm))
      exact List.rel_filterMap (fun _ _ hf => hf.diagnostic? registration.reporter _ _)
        (hfound registration List.mem_cons_self)
  rw [reported, reported, findings, findings, List.filterMap_append, List.filterMap_append]
  refine List.rel_append (hplace _ _ hblock) ?_
  rw [Document.views_eq, Document.views_eq, h.size_eq, List.filterMap_flatMap,
    List.filterMap_flatMap, List.flatMap_map, List.flatMap_map]
  refine forall₂_flatMap fun i hi => hplace _ _ fun registration hm => ?_
  have hi := List.mem_range.1 hi
  exact h.findingsAt hi (hviews registration hm i hi)

/-- What a check reports of a document and of its counterpart. -/
theorem forall₂_check (h : document.Counterpart move verbatim document')
    {rules : List (Rule × Severity)}
    (hblock : ∀ entry ∈ rules, Correspond move verbatim
      (entry.1.check .block document.blockView) (entry.1.check .block document'.blockView))
    (hviews : ∀ entry ∈ rules, ∀ i < document.stream.tokens.size,
      Rule.Corresponds move verbatim (document.viewAt i) (document'.viewAt i) entry.1.check) :
    List.Forall₂ (Diagnostic.Counterpart move verbatim document.lines document'.lines)
      (check document rules).diagnostics (check document' rules).diagnostics := by
  obtain ⟨registrations, hentry, hreported, hreported'⟩ := exists_reported document document' rules
  rw [hreported, hreported']
  exact forall₂_reported h (fun registration hm => hblock _ (hentry registration hm))
    fun registration hm => hviews _ (hentry registration hm)

end Session

/-! ### Results -/

/-- Lists whose elements correspond are sorted alike. -/
theorem forall₂_mergeSort {α β : Type} {r : α → β → Prop} {le : α → α → Bool} {le' : β → β → Bool}
    (hle : ∀ a b a' b', r a a' → r b b' → le a b = le' a' b') {as : List α} {bs : List β}
    (h : List.Forall₂ r as bs) : List.Forall₂ r (as.mergeSort le) (bs.mergeSort le') := by
  -- Both are sorted as the pairs of counterparts are.
  obtain ⟨pairs, rfl, rfl, hpairs⟩ : ∃ pairs : List (α × β), as = pairs.map Prod.fst ∧
      bs = pairs.map Prod.snd ∧ ∀ pair ∈ pairs, r pair.1 pair.2 := by
    obtain ⟨hlength, hzip⟩ := List.forall₂_iff_zip.1 h
    exact ⟨as.zip bs, (List.map_fst_zip (Nat.le_of_eq hlength)).symm,
      (List.map_snd_zip (Nat.le_of_eq hlength.symm)).symm, fun pair hm => hzip hm⟩
  rw [← List.map_mergeSort (r := fun pair other => le pair.1 other.1) fun _ _ _ _ => rfl,
    ← List.map_mergeSort (r := fun pair other => le pair.1 other.1) fun pair hm other hm' =>
      hle _ _ _ _ (hpairs pair hm) (hpairs other hm')]
  refine List.forall₂_map_left_iff.2 (List.forall₂_map_right_iff.2 (List.forall₂_same.2 ?_))
  exact fun pair hm => hpairs pair (List.mem_mergeSort.1 hm)

theorem LintResult.forall₂_ofDiagnostics (hmove : StrictMono move) {lines lines' : LineIndex}
    {reports reports' : List Diagnostic}
    (h : List.Forall₂ (Diagnostic.Counterpart move verbatim lines lines') reports reports')
    (filename filename' : String) (used used' : List String) :
    List.Forall₂ (Diagnostic.Counterpart move verbatim lines lines')
      (ofDiagnostics filename reports used).diagnostics
      (ofDiagnostics filename' reports' used').diagnostics := by
  refine forall₂_mergeSort (fun a b a' b' ha hb => ?_) h
  rw [ha.start_eq, hb.start_eq]
  exact decide_eq_decide.2 hmove.le_iff_le.symm

end PugLint
