import PugLint.Proofs.Directive.Printing
import PugLint.Proofs.Linter.Fixes

/-!
# The spelling of attributes after a fix

The name of an attribute has an opening, a checked name and modifiers. A fix of the spelling
replaces the checked name, and everything around it stays.

The place of the checked name is searched for in the name as written, from the start of the
token. So it is missed behind a quote, which is part of the token and not of the name, and where
the argument of a binding also stands earlier, over the opening `v-bind:`. The latter takes an
argument with the dash of the opening in it, which is not in order if there must be none.

* `Rule.Checks`: the parts of the name of an attribute;
* `Rule.Checks.checkedName?_eq`: the checked name is found behind the opening;
* `hyphenation_fixes`: a document after a fix of the spelling of an attribute.
-/

namespace PugLint

open Text

/-! ### Where a name stands first -/

/-- A text that starts once more behind another one has no other characters than that one. -/
theorem Text.mem_of_isPrefix_append {name front : List Char} (hne : front ≠ [])
    (h : name <+: front ++ name) : ∀ c ∈ name, c ∈ front := by
  induction hn : name.length using Nat.strongRecOn generalizing name with
  | ind n ih =>
    intro c hc
    rcases Nat.le_total name.length front.length with hle | hle
    · exact (List.prefix_of_prefix_length_le h (List.prefix_append _ _) hle).subset hc
    · obtain ⟨rest, rfl⟩ := List.prefix_of_prefix_length_le (List.prefix_append _ _) h hle
      have hrest : rest <+: front ++ rest := (List.prefix_append_right_inj front).1 h
      have hpos := List.length_pos_iff.2 hne
      rcases List.mem_append.1 hc with hc | hc
      · exact hc
      · exact ih rest.length (by rw [← hn, List.length_append]; omega) hrest rfl c hc

/-- A name stands over an opening already, in front of its place behind the opening. -/
def Text.Overlaps (opening name : List Char) : Prop :=
  ∃ front back, opening = front ++ back ∧ back ≠ [] ∧ name <+: back ++ name

/-- A name that does not stand over the opening is first found behind it. -/
theorem Text.splitBefore?_opening {opening name : List Char} (h : ¬Overlaps opening name)
    (modifiers : List Char) :
    splitBefore? name (opening ++ (name ++ modifiers)) = some (opening, name ++ modifiers) := by
  rw [splitBefore?_append, splitBefore?_of_isPrefix (List.prefix_append _ _), behind_some,
    List.append_nil]
  intro front back hopening hne hprefix
  refine h ⟨front, back, hopening, hne, ?_⟩
  refine List.prefix_of_prefix_length_le hprefix ⟨modifiers, List.append_assoc ..⟩ ?_
  rw [List.length_append]
  omega

/-! ### The parts of a name -/

namespace Rule

/-- The parts of the name of an attribute: an opening, the name whose spelling is checked, and
    modifiers. -/
inductive Checks (raw : String) : List Char → String → List Char → Prop where
  /-- A plain name is checked as it is. -/
  | plain : Directive.parse? raw = none → Checks raw [] raw []
  /-- Of a binding, a static argument is checked. -/
  | binding {directive : Directive} {opening modifiers : List Char} {name : String} :
    Directive.parse? raw = some directive → directive.is "bind" = true →
    directive.staticArgument? = some name → opening = [':'] ∨ opening = "v-bind:".toList →
    raw.toList = opening ++ (name.toList ++ modifiers) → (∀ c ∈ modifiers.head?, c = '.') →
    Checks raw opening name modifiers

/-- A static argument stands behind the opening of a binding. -/
theorem checks_of_parse? {raw name : String} {directive : Directive}
    (hparse : Directive.parse? raw = some directive) (hbind : directive.is "bind" = true)
    (hargument : directive.staticArgument? = some name) :
    ∃ opening modifiers, Checks raw opening name modifiers := by
  have hname := (Option.filter_eq_some_iff.1 hargument).1
  cases Directive.parse?_eq_some_iff.1 hparse with
  | @argument word rest _ hraw =>
    have hword : word = "bind".toList := by
      simpa only [Directive.withArgument, String.toList_ofList] using
        congrArg String.toList (beq_iff_eq.1 hbind)
    refine ⟨_, _, .binding hparse hbind hargument (.inr rfl) ?_
      (Directive.head?_splitArgument 0 rest)⟩
    rw [← Directive.append_of_argument hname, hraw, hword]
    rfl
  | bare => cases hname
  | @short shorthand rest hraw =>
    cases shorthand with
    | bind =>
      refine ⟨_, _, .binding hparse hbind hargument (.inl rfl) ?_
        (Directive.head?_splitArgument 0 rest)⟩
      rw [← Directive.append_of_argument hname, hraw, Shorthand.toList_short]
      rfl
    | on => cases hbind
    | slot => cases hbind

/-- A name that is checked is one of the parts of what is written. -/
theorem exists_checks {raw name : String} {offset : Nat}
    (h : checkedName? raw = some (name, offset)) :
    ∃ opening modifiers, Checks raw opening name modifiers := by
  unfold checkedName? at h
  split at h
  · rename_i hparse
    cases h
    exact ⟨[], [], .plain hparse⟩
  · rename_i directive hparse
    split at h
    · rename_i hbind
      obtain ⟨argument, hargument, h⟩ := Option.bind_eq_some_iff.1 h
      obtain ⟨⟨before, rest⟩, -, h⟩ := Option.bind_eq_some_iff.1 h
      cases h
      exact checks_of_parse? hparse hbind hargument
    · cases h

variable {raw name : String} {opening modifiers : List Char}

theorem Checks.toList_eq (h : Checks raw opening name modifiers) :
    raw.toList = opening ++ (name.toList ++ modifiers) := by
  cases h with
  | plain => simp
  | binding _ _ _ _ hraw => exact hraw

/-- The checked name is found behind the opening, unless it stands over the opening already. -/
theorem Checks.checkedName?_eq (h : Checks raw opening name modifiers)
    (hover : ¬Overlaps opening name.toList) :
    checkedName? raw = some (name, byteLength opening) := by
  rw [checkedName?]
  cases h with
  | plain hparse =>
    rw [hparse]
    rfl
  | binding hparse hbind hargument _ hraw =>
    have hfirst := splitBefore?_opening hover modifiers
    rw [← hraw] at hfirst
    simp [hparse, hbind, hargument, hfirst]

/-- A name that is not in order stands over the opening of a binding in full at most, and only
    where there must be no dash in it. -/
theorem Checks.not_overlaps (h : Checks raw opening name modifiers) {option : Hyphenation}
    (hrejected : option.accepts name.toList = false)
    (hfull : option = .never → opening = "v-bind:".toList → ¬Overlaps opening name.toList) :
    ¬Overlaps opening name.toList := by
  rintro hover
  obtain ⟨front, back, hopening, hne, hprefix⟩ := id hover
  -- All the characters of the name are those of the opening.
  have hmem : ∀ c ∈ name.toList, c ∈ opening := fun c hc =>
    hopening ▸ List.mem_append_right front (mem_of_isPrefix_append hne hprefix c hc)
  cases h with
  | plain => exact hne (List.append_eq_nil_iff.1 hopening.symm).2
  | binding _ _ _ hspelled _ _ =>
    cases option with
    | always =>
      simp only [Hyphenation.accepts, Bool.not_eq_false', List.any_eq_true] at hrejected
      obtain ⟨c, hc, hupper⟩ := hrejected
      have hlower : opening.any Char.isUpper = false := by
        rcases hspelled with rfl | rfl <;> decide
      exact List.any_eq_false.1 hlower c (hmem c hc) hupper
    | never =>
      simp only [Hyphenation.accepts, Bool.not_eq_false', List.contains_iff_mem] at hrejected
      rcases hspelled with rfl | rfl
      · exact absurd (hmem '-' hrejected) (by decide)
      · exact hfull rfl rfl hover

/-- What is found about the spelling of an attribute: a problem at the start of its token, and a
    fix that replaces the checked name from the place where it is found first. -/
theorem of_mem_check_attributeHyphenation {option : Hyphenation} {ignored : List String}
    {event : Event} {view : View} {finding : Finding}
    (h : finding ∈ (attributeHyphenation option ignored).check event view) :
    event = .attribute ∧ ∃ raw value name offset, view.token.attribute? = some (raw, value) ∧
      checkedName? raw = some (name, offset) ∧ option.accepts name.toList = false ∧
      finding = .problem option.messageId [("text", raw)] view.token.start view.token.nameRange.2
        ((view.token.edit? (view.token.start + offset)
            (view.token.start + offset + name.utf8ByteSize) (option.style.convertExact name)).map
          fun edit => ⟨"Rename to " ++ option.style.spelling, [edit]⟩) := by
  dsimp only [attributeHyphenation] at h
  unfold atAttributes at h
  split at h
  · split at h
    · rename_i raw value hattribute
      dsimp only at h
      split at h
      · rename_i element name offset howner hchecked
        split at h
        · exact absurd h List.not_mem_nil
        · rename_i hrejected
          simp only [isAcceptedAttribute, Bool.or_eq_true, not_or, Bool.not_eq_true] at hrejected
          refine ⟨rfl, raw, value, name, offset, hattribute, hchecked, hrejected.2.2, ?_⟩
          rw [List.mem_singleton.1 h, PlacedToken.nameRange_fst]
      · exact absurd h List.not_mem_nil
    · exact absurd h List.not_mem_nil
  · exact absurd h List.not_mem_nil

end Rule

/-! ### Documents -/

/-- The name of an attribute stands at the front of what is written of it. -/
theorem TokenKind.Written.exists_name {raw : String} {value : Option String} {escaped : Bool}
    {written : List Char} (h : (TokenKind.attribute raw value escaped).Written written) :
    ∃ shown behind, NameWritten raw.toList shown ∧ written = shown ++ behind := by
  cases value with
  | none => exact ⟨written, [], h.1, (List.append_nil _).symm⟩
  | some value =>
    obtain ⟨shown, before, behind, hname, -, -, rfl⟩ := h
    exact ⟨shown, before ++ assignment escaped ++ behind ++ value.toList, hname,
      by simp only [List.append_assoc]⟩

/-- A name that is not quoted stands at the start of its token. -/
theorem PlacedToken.InPlace.exists_append {text : List Char} {first last : Nat}
    {token : PlacedToken} (h : token.InPlace text first last) {raw : String}
    {value : Option String} (hattribute : token.attribute? = some (raw, value))
    (hquote : isQuotedAt text token.start = false) :
    ∃ before behind, text = before ++ (raw.toList ++ behind) ∧
      byteLength before = token.start ∧ token.start + byteLength raw.toList ≤ token.stop := by
  obtain ⟨written, hslice, hwritten⟩ := h.written
  obtain ⟨escaped, hkind⟩ := TokenKind.exists_of_attribute? hattribute
  rw [hkind] at hwritten
  obtain ⟨shown, tail, hname, rfl⟩ := hwritten.exists_name
  have hbytes := byteLength_of_slice? hslice
  obtain ⟨before, after, rfl, hbefore⟩ := append_of_slice? hslice
  rw [isQuotedAt, ← hbefore, splitAt?_append] at hquote
  rcases hname with rfl | rfl | rfl
  · refine ⟨before, tail ++ after, by simp only [List.append_assoc], hbefore, ?_⟩
    rw [byteLength_append] at hbytes
    omega
  · simp at hquote
  · simp at hquote

/-- A fix replaces a name in an attribute that starts at a byte of a document, behind an opening
    and in front of modifiers, and nothing else. -/
def Fix.Renames (fix : Fix) (source : String) (start : Nat) (opening : List Char)
    (name converted : String) (modifiers : List Char) : Prop :=
  ∃ before behind, byteLength before = start ∧
    source.toList = before ++ (opening ++ (name.toList ++ (modifiers ++ behind))) ∧
    (fix.apply source).toList =
      before ++ (opening ++ (converted.toList ++ (modifiers ++ behind)))

/-- The edit of a checked name that is not quoted and found behind its opening. -/
theorem PlacedToken.InPlace.exists_renames {source : String} {first last : Nat}
    {token : PlacedToken} (h : token.InPlace source.toList first last) {raw name : String}
    {value : Option String} (hattribute : token.attribute? = some (raw, value))
    {opening modifiers : List Char} (hchecks : Rule.Checks raw opening name modifiers)
    (hquote : isQuotedAt source.toList token.start = false) (title newText : String) :
    ∃ edit, token.edit? (token.start + byteLength opening)
        (token.start + byteLength opening + name.utf8ByteSize) newText = some edit ∧
      (Fix.mk title [edit]).Renames source token.start opening name newText modifiers := by
  obtain ⟨before, behind, htext, hbefore, hroom⟩ := h.exists_append hattribute hquote
  rw [hchecks.toList_eq] at htext hroom
  simp only [byteLength_append] at hroom
  refine ⟨_, edit?_eq_some_iff.2 ⟨⟨?_, ?_, ?_⟩, rfl⟩, before, behind, hbefore, ?_, ?_⟩
  · omega
  · omega
  · rw [utf8ByteSize_eq]
    omega
  · rw [htext]
    simp only [List.append_assoc]
  · have hold : source.toList = (before ++ opening) ++ (name.toList ++ (modifiers ++ behind)) := by
      rw [htext]
      simp only [List.append_assoc]
    rw [Fix.apply_append rfl hold (by rw [byteLength_append, hbefore]) (by rw [utf8ByteSize_eq]),
      String.toList_ofList, List.append_assoc]

/-- Among the rules that there are, one has the name of the rule about spelling. -/
theorem Rule.BuiltIn.exists_eq_attributeHyphenation {rule : Rule} (h : rule.BuiltIn)
    (hname : rule.name = "vue/attribute-hyphenation") :
    ∃ option ignored, rule = .attributeHyphenation option ignored := by
  cases h with
  | attributeHyphenation option ignored => exact ⟨option, ignored, rfl⟩
  | _ => exact absurd hname (of_decide_eq_false rfl)

/-- A diagnostic is about the spelling of an attribute: it starts with the token, and its fix
    replaces the checked name from the place where it is found first. -/
structure Diagnostic.AboutSpelling (token : PlacedToken) (option : Rule.Hyphenation)
    (raw name : String) (offset : Nat) (diagnostic : Diagnostic) : Prop where
  attribute_eq : ∃ value, token.attribute? = some (raw, value)
  checked_eq : Rule.checkedName? raw = some (name, offset)
  rejected : option.accepts name.toList = false
  start_eq : diagnostic.start = token.start
  fix_eq : diagnostic.fix = (token.edit? (token.start + offset)
      (token.start + offset + name.utf8ByteSize) (option.style.convertExact name)).map
    fun edit => ⟨"Rename to " ++ option.style.spelling, [edit]⟩

theorem Diagnostic.Reported.aboutSpelling {rules : List (Rule × Severity)}
    (hrules : ∀ entry ∈ rules, entry.1.BuiltIn) {view : View} {event : Event}
    {diagnostic : Diagnostic} (h : diagnostic.Reported rules view event)
    (hname : diagnostic.ruleName = "vue/attribute-hyphenation") :
    event = .attribute ∧
      ∃ option ignored severity, (Rule.attributeHyphenation option ignored, severity) ∈ rules ∧
        ∃ raw name offset, diagnostic.AboutSpelling view.token option raw name offset := by
  obtain ⟨⟨rule, severity⟩, hentry, finding, hfinding, hdiagnostic⟩ := h
  have hrule := (Reporter.ruleName_of_diagnostic? hdiagnostic).symm.trans hname
  obtain ⟨option, ignored, rfl⟩ := (hrules _ hentry).exists_eq_attributeHyphenation hrule
  obtain ⟨hevent, raw, value, name, offset, hattribute, hchecked, hrejected, rfl⟩ :=
    Rule.of_mem_check_attributeHyphenation hfinding
  cases hdiagnostic
  exact ⟨hevent, option, ignored, severity, hentry, raw, name, offset, ⟨value, hattribute⟩,
    hchecked, hrejected, rfl, rfl⟩

/-- What is reported about spelling is reported at a token. -/
theorem Session.aboutSpelling_of_mem_check {document : Document} {rules : List (Rule × Severity)}
    (hrules : ∀ entry ∈ rules, entry.1.BuiltIn) {diagnostic : Diagnostic}
    (h : diagnostic ∈ (Session.check document rules).diagnostics)
    (hname : diagnostic.ruleName = "vue/attribute-hyphenation") :
    ∃ option ignored severity, (Rule.attributeHyphenation option ignored, severity) ∈ rules ∧
      ∃ token ∈ document.stream.tokens, ∃ raw name offset,
        diagnostic.AboutSpelling token option raw name offset := by
  rcases Session.ofBlock_or_ofToken_of_mem_check h with h | ⟨view, hview, event, -, h⟩
  · exact Event.noConfusion (h.aboutSpelling hrules hname).1
  · obtain ⟨-, option, ignored, severity, hentry, raw, name, offset, habout⟩ :=
      h.aboutSpelling hrules hname
    exact ⟨option, ignored, severity, hentry, view.token,
      (Document.token_mem_of_mem_views hview).2, raw, name, offset, habout⟩

/-- A fix of the spelling of an attribute replaces the checked name, in a template and in a
    component, with any of the rules that there are, unless the name is quoted, or there must be
    no dashes and the argument of a binding in full stands over `v-bind:` as well. -/
theorem hyphenation_fixes [Caching] [ScriptParser] (registry : Registry)
    (hrules : ∀ entry ∈ registry.rules, entry.1.BuiltIn) (mode : LintMode) (source : String)
    (block : TemplateBlock) (script : ScriptInfo)
    (hblock : mode.block? source = some (block, script)) (filename : String) :
    ∀ diagnostic ∈ ((Linter.ofRegistry registry).lint .start mode source filename).1.diagnostics,
      diagnostic.ruleName = "vue/attribute-hyphenation" →
      ∃ option ignored severity,
        (Rule.attributeHyphenation option ignored, severity) ∈ registry.rules ∧
        ∃ token ∈ (TokenStream.ofBlock block).tokens, ∃ raw value opening name modifiers,
          token.attribute? = some (raw, value) ∧ Rule.Checks raw opening name modifiers ∧
          diagnostic.start = token.start ∧
          (isQuotedAt source.toList token.start = false →
            (option = .never → opening = "v-bind:".toList → ¬Overlaps opening name.toList) →
            ∃ fix, diagnostic.fix = some fix ∧
              fix.Renames source token.start opening name (option.style.convertExact name)
                modifiers) := by
  intro diagnostic hdiagnostic hname
  rw [Linter.lint_ofRegistry registry hblock filename] at hdiagnostic
  obtain ⟨option, ignored, severity, hentry, token, htoken, raw, name, offset, habout⟩ :=
    Session.aboutSpelling_of_mem_check hrules (List.mem_mergeSort.1 hdiagnostic) hname
  obtain ⟨value, hattribute⟩ := habout.attribute_eq
  obtain ⟨opening, modifiers, hchecks⟩ := Rule.exists_checks habout.checked_eq
  refine ⟨option, ignored, severity, hentry, token, htoken, raw, value, opening, name, modifiers,
    hattribute, hchecks, habout.start_eq, fun hquote hfull => ?_⟩
  have hplace := hchecks.checkedName?_eq (hchecks.not_overlaps habout.rejected hfull)
  rw [habout.checked_eq] at hplace
  cases hplace
  have hstands := Linter.standsIn_of_block? hblock
  obtain ⟨edit, hedit, hrenames⟩ :=
    (TokenStream.inPlace_ofBlock hstands _ htoken).exists_renames hattribute hchecks hquote
      ("Rename to " ++ option.style.spelling) (option.style.convertExact name)
  exact ⟨_, by rw [habout.fix_eq, hedit]; rfl, hrenames⟩

theorem Rule.option_eq_of_attributeHyphenation {option option' : Hyphenation}
    {ignored ignored' : List String}
    (h : attributeHyphenation option ignored = attributeHyphenation option' ignored') :
    option = option' := by
  have hword := congrArg Rule.options h
  cases option <;> cases option' <;> simp_all [attributeHyphenation, Hyphenation.word]

-- Bare templates have no script.
attribute [local instance] ScriptParser.never

/-- The argument of a binding in full, in front of a modifier and of a value that has the same
    name, and behind a name of two bytes. -/
theorem hyphenation_fixes_modifier :
    let registry : Registry := ⟨[{ rule := .attributeHyphenation .always ["x"] }]⟩
    let template := "x-y(é='' v-bind:fooBar.sync=\"fooBar\")"
    let result := ((Linter.ofRegistry registry).lint .start .template template "a.pug").1
    let outcome (diagnostic : Diagnostic) := (diagnostic.ruleName, diagnostic.start,
      isQuotedAt template.toList diagnostic.start, diagnostic.fix.map (·.apply template))
    (∀ entry ∈ registry.rules, entry.1.BuiltIn) ∧
      LintMode.template.block? template = some (.bare template, {}) ∧
      result.diagnostics.map outcome = [("vue/attribute-hyphenation", 10, false,
          some "x-y(é='' v-bind:foo-bar.sync=\"fooBar\")")] ∧
      ∀ diagnostic ∈ result.diagnostics, ∃ opening name modifiers fix,
        diagnostic.fix = some fix ∧
          fix.Renames template diagnostic.start opening name (CaseStyle.kebab.convertExact name)
            modifiers := by
  intro registry template result outcome
  have hrules : ∀ entry ∈ registry.rules, entry.1.BuiltIn :=
    List.forall_mem_singleton.2 (.attributeHyphenation _ _)
  have hblock : LintMode.template.block? template = some (.bare template, {}) := rfl
  have hreport : result.diagnostics.map outcome = [("vue/attribute-hyphenation", 10, false,
      some "x-y(é='' v-bind:foo-bar.sync=\"fooBar\")")] := by
    decide +kernel
  refine ⟨hrules, hblock, hreport, fun diagnostic hdiagnostic => ?_⟩
  have hreported := List.mem_map_of_mem (f := outcome) hdiagnostic
  rw [hreport, List.mem_singleton] at hreported
  have hname : diagnostic.ruleName = _ := congrArg Prod.fst hreported
  have hquote : isQuotedAt template.toList diagnostic.start = false :=
    congrArg (·.2.2.1) hreported
  obtain ⟨option, ignored, severity, hentry, token, -, raw, value, opening, name, modifiers, -, -,
    hstart, hfix⟩ := hyphenation_fixes registry hrules .template template (.bare template) {}
      hblock "a.pug" diagnostic hdiagnostic hname
  have hrule := congrArg Prod.fst (List.mem_singleton.1 hentry)
  obtain rfl := Rule.option_eq_of_attributeHyphenation hrule
  rw [hstart] at hquote
  obtain ⟨fix, hfix, hrenames⟩ := hfix hquote (fun h => Rule.Hyphenation.noConfusion h)
  exact ⟨opening, name, modifiers, fix, hfix, hstart ▸ hrenames⟩

/-- A template after each of the fixes of a rule. -/
def Rule.fixedBy (rule : Rule) (template : String) : List (Option String) :=
  ((Linter.ofRegistry ⟨[{ rule }]⟩).lint .start .template template "a.pug").1.diagnostics.map
    fun diagnostic => diagnostic.fix.map (·.apply template)

/-- Without the exceptions it fails: of a quoted name, the opening quote goes and the last
    character stays, and in place of an argument that also stands over the opening, the opening
    is changed. -/
theorem hyphenation_fixes_fails :
    (let rule := Rule.attributeHyphenation .always []
     rule.BuiltIn ∧ Rule.Checks "fooBar" [] "fooBar" [] ∧
       CaseStyle.kebab.convertExact "fooBar" = "foo-bar" ∧
       rule.fixedBy "x-y(\"fooBar\"='1')" = [some "x-y(foo-barr\"='1')"]) ∧
    let rule := Rule.attributeHyphenation .never []
    rule.BuiltIn ∧ Rule.Checks "v-bind:v-b" "v-bind:".toList "v-b" [] ∧
      CaseStyle.camel.convertExact "v-b" = "vB" ∧
      rule.fixedBy "x-y(v-bind:v-b='1')" = [some "x-y(vBind:v-b='1')"] :=
  ⟨⟨.attributeHyphenation _ _, .plain (by decide), by decide +kernel, by decide +kernel⟩,
    .attributeHyphenation _ _, .binding rfl (by decide) rfl (.inr rfl) rfl (by simp),
    by decide +kernel, by decide +kernel⟩

end PugLint
