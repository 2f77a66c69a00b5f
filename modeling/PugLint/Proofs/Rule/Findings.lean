import PugLint.Proofs.Component
import PugLint.Proofs.Expression
import PugLint.Proofs.Rule.Problems

/-!
# Where rules find something

Each rule has its own way to come to a range: a name at the front of an
attribute, a value at its back, an identifier somewhere in a value or in a text.
All of these stay within a token, because the value of an attribute is the last
part of what is written, and because the ends of the others are cut off where
the token ends.

* `PlacedToken.Covers`: a range lies within a token;
* `PlacedToken.Roomy`: what is needed of a token for that;
* `Rule.Mends`: the edits of the three rules that mend what they find;
* `Rule.Found`, `BuiltIn.finds`: what the rules that there are find at a token.
-/

namespace PugLint

namespace PlacedToken

/-- A range lies within a token. -/
structure Covers (token : PlacedToken) (start stop : Nat) : Prop where
  first_le : token.start ≤ start
  start_le_stop : start ≤ stop
  stop_le : stop ≤ token.stop

/-- A token has room for what it says: it ends behind its start, and the value of
    an attribute fits into it. -/
structure Roomy (token : PlacedToken) : Prop where
  start_le_stop : token.start ≤ token.stop
  value_le : ∀ name value, token.attribute? = some (name, some value) →
    token.start + value.utf8ByteSize ≤ token.stop

variable {token : PlacedToken} {raw value : String}

theorem Roomy.covers (h : token.Roomy) : token.Covers token.start token.stop :=
  ⟨Nat.le_refl _, h.start_le_stop, Nat.le_refl _⟩

/-- The first bytes of a token, as far as it goes. -/
theorem Roomy.covers_front (h : token.Roomy) (n : Nat) :
    token.Covers token.start (min (token.start + n) token.stop) :=
  ⟨Nat.le_refl _, Nat.le_min.2 ⟨Nat.le_add_right _ _, h.start_le_stop⟩, Nat.min_le_right _ _⟩

theorem Roomy.covers_nameRange (h : token.Roomy) :
    token.Covers token.nameRange.1 token.nameRange.2 := by
  rw [nameRange, nameRange?]
  cases token.attribute? with
  | none => exact h.covers
  | some pair => exact h.covers_front _

/-- The value of an attribute is the last part of its token. -/
theorem Roomy.valueRange_eq (h : token.Roomy) (hvalue : token.attribute? = some (raw, some value)) :
    token.valueRange = (token.stop - value.utf8ByteSize, token.stop) := by
  have hroom := h.value_le raw value hvalue
  simp only [valueRange, valueRange?, hvalue, Option.getD_some]
  rw [Nat.max_eq_left (by omega)]

theorem Roomy.covers_valueRange (h : token.Roomy) :
    token.Covers token.valueRange.1 token.valueRange.2 := by
  match hattribute : token.attribute? with
  | some (raw, some value) =>
    have hroom := h.value_le raw value hattribute
    rw [h.valueRange_eq hattribute]
    exact ⟨by simp only; omega, Nat.sub_le _ _, Nat.le_refl _⟩
  | some (raw, none) =>
    rw [valueRange, valueRange?, hattribute]
    exact h.covers
  | none =>
    rw [valueRange, valueRange?, hattribute]
    exact h.covers

theorem Roomy.start_le_expressionStart (h : token.Roomy) :
    token.start ≤ token.expressionStart value :=
  Nat.le_trans h.covers_valueRange.first_le (Nat.le_add_right _ _)

/-- A part of the text inside the quotes of a value. -/
theorem Roomy.covers_expression (h : token.Roomy)
    (hvalue : token.attribute? = some (raw, some value)) {offset size : Nat}
    (hle : offset + size ≤ Text.byteLength (Expression.unquoteChars value.toList)) :
    token.Covers (token.expressionStart value + offset)
      (token.expressionStart value + offset + size) := by
  have hroom := h.value_le raw value hvalue
  have hquotes := Expression.unquotedOffset_add_le value
  rw [expressionStart, h.valueRange_eq hvalue]
  exact ⟨by simp only; omega, Nat.le_add_right _ _, by simp only; omega⟩

theorem Roomy.covers_expressionRange (h : token.Roomy)
    (hvalue : token.attribute? = some (raw, some value)) :
    token.Covers (token.expressionRange value).1 (token.expressionRange value).2 := by
  have hstart := h.covers_expression hvalue (Nat.le_of_eq (Nat.zero_add _))
  rw [Nat.add_zero] at hstart
  simp only [expressionRange]
  exact ⟨hstart.first_le, Nat.le_min.2 ⟨Nat.le_add_right _ _,
    Nat.le_trans (Nat.le_add_right _ _) hstart.stop_le⟩, Nat.min_le_right _ _⟩

/-- An edit of a token lies within it. -/
theorem edit?_eq_some_iff {start stop : Nat} {newText : String} {edit : Edit} :
    token.edit? start stop newText = some edit ↔
      token.Covers start stop ∧ ⟨start, stop, newText⟩ = edit := by
  rw [edit?]
  split
  · rename_i hrange
    simp only [Bool.and_eq_true, decide_eq_true_eq] at hrange
    simp only [Option.some.injEq]
    exact ⟨fun h => ⟨⟨hrange.1.1, hrange.1.2, hrange.2⟩, h⟩, And.right⟩
  · rename_i hrange
    refine ⟨nofun, fun h => absurd ?_ hrange⟩
    simp only [Bool.and_eq_true, decide_eq_true_eq]
    exact ⟨⟨h.1.first_le, h.1.start_le_stop⟩, h.1.stop_le⟩

end PlacedToken

namespace Rule

/-! ### Findings -/

/-- The edits of the rules that mend what they find, by the name of the rule and the start of
    the problem. -/
inductive Mends (ruleName : String) (view : View) : Nat → Edit → Prop where
  /-- A use of the deprecated property is replaced. -/
  | slots {token : PlacedToken} {raw value : String} {directive : Directive} {offset : Nat}
      {edit : Edit} : token ∈ view.tokens → token.attribute? = some (raw, some value) →
      offset ∈ scopedSlotsOffsets directive (Expression.unquoteChars value.toList) →
      token.edit? (token.expressionStart value + offset)
        (token.expressionStart value + offset + scopedSlots.utf8ByteSize) "$slots" = some edit →
      Mends ruleName view (token.expressionStart value + offset) edit
  /-- The checked part of the name of an attribute is spelled otherwise. -/
  | attributeName {token : PlacedToken} {raw name : String} {value : Option String}
      {offset : Nat} {option : Hyphenation} {edit : Edit} : token ∈ view.tokens →
      token.attribute? = some (raw, value) → checkedName? raw = some (name, offset) →
      name ≠ "" →
      token.edit? (token.nameRange.1 + offset) (token.nameRange.1 + offset + name.utf8ByteSize)
        (option.style.convertExact name) = some edit →
      Mends ruleName view token.nameRange.1 edit
  /-- The name of an element is spelled otherwise. -/
  | elementName {element : Element} {casing : ComponentCasing} {edit : Edit} :
      ruleName = (componentCasing casing).name → view.token ∈ view.tokens →
      view.element? = some element → element.kind = .tag →
      casing.style.check element.name = false →
      casing.checks view.document.script element.name = true →
      view.token.edit? view.token.start view.token.stop (casing.style.convertExact element.name) =
        some edit →
      Mends ruleName view view.token.start edit

theorem Mends.exists_covers {ruleName : String} {view : View} {start : Nat} {edit : Edit}
    (h : Mends ruleName view start edit) :
    ∃ token ∈ view.tokens, token.Covers edit.start edit.stop := by
  cases h with
  | slots htoken _ _ hedit | attributeName htoken _ _ _ hedit
  | elementName _ htoken _ _ _ _ hedit =>
    obtain ⟨hcovers, rfl⟩ := PlacedToken.edit?_eq_some_iff.1 hedit
    exact ⟨_, htoken, hcovers⟩

/-- What is found at a token: a problem within some token, with a fix of one edit
    if it has any, or a use. -/
inductive Found (ruleName : String) (view : View) : Finding → Prop where
  | problem {messageId : String} {data : List (String × String)} {start stop : Nat}
      {fix : Option Fix} {token : PlacedToken} : token ∈ view.tokens → token.Covers start stop →
      (∀ f ∈ fix, ∃ edit, f.edits = [edit] ∧ Mends ruleName view start edit) →
      Found ruleName view (.problem messageId data start stop fix)
  | use (name : String) : Found ruleName view (.usesBinding name)

variable {ruleName : String} {view : View} {token : PlacedToken}

theorem Found.over {messageId : String} {data : List (String × String)} {range : Nat × Nat}
    (htoken : token ∈ view.tokens) (h : token.Covers range.1 range.2) :
    Found ruleName view (.over messageId data range) :=
  .problem htoken h nofun

/-- At most one problem, over a range of a token. -/
theorem found_ite {messageId : String} {data : List (String × String)} {range : Nat × Nat}
    {condition : Prop} [Decidable condition] (htoken : token ∈ view.tokens)
    (h : token.Covers range.1 range.2) :
    ∀ finding ∈ (if condition then [Finding.over messageId data range] else []),
      Found ruleName view finding := by
  split
  · exact List.forall_mem_singleton.2 (.over htoken h)
  · exact List.forall_mem_nil _

theorem found_usedBindings (names : List String) :
    ∀ finding ∈ usedBindings view names, Found ruleName view finding :=
  List.forall_mem_map.2 fun name _ => .use name

theorem found_thisFinding (htoken : token ∈ view.tokens) (hroomy : token.Roomy) {offset : Nat}
    (h : token.start ≤ offset) : Found ruleName view (thisFinding token offset) :=
  .over htoken ⟨Nat.le_min.2 ⟨h, hroomy.start_le_stop⟩,
    Nat.le_min.2 ⟨Nat.le_add_right _ _, Nat.min_le_right _ _⟩, Nat.min_le_right _ _⟩

/-- A fix of one edit mends if the edit does. -/
theorem mends_of_map {edit? : Option Edit} {title : String}
    {start : Nat} (h : ∀ edit, edit? = some edit → Mends ruleName view start edit) :
    ∀ fix ∈ edit?.map (fun edit => (⟨title, [edit]⟩ : Fix)),
      ∃ edit, fix.edits = [edit] ∧ Mends ruleName view start edit := by
  intro fix hfix
  obtain ⟨edit, hedit, rfl⟩ := Option.map_eq_some_iff.1 hfix
  exact ⟨edit, rfl, h edit hedit⟩

/-! ### Checks -/

/-- A check that finds something at tokens, wherever they have room for what they
    say. The template block as a whole is left out. -/
def Finds (ruleName : String) (check : Event → View → List Finding) : Prop :=
  ∀ event view, event ≠ .block → view.token ∈ view.tokens →
    (∀ token ∈ view.tokens, token.Roomy) → ∀ finding ∈ check event view, Found ruleName view finding

variable {first second : Event → View → List Finding}

theorem Finds.both (h₁ : Finds ruleName first) (h₂ : Finds ruleName second) :
    Finds ruleName (Rule.both first second) :=
  fun event view hevent htoken hroomy => List.forall_mem_append.2
    ⟨h₁ event view hevent htoken hroomy, h₂ event view hevent htoken hroomy⟩

theorem finds_atAttributes
    {check : View → PlacedToken → String → Option String → List Finding}
    (h : ∀ view raw value, view.token ∈ view.tokens → (∀ token ∈ view.tokens, token.Roomy) →
      view.token.attribute? = some (raw, value) →
      ∀ finding ∈ check view view.token raw value, Found ruleName view finding) :
    Finds ruleName (atAttributes check) := by
  intro event view _ htoken hroomy
  unfold atAttributes
  split
  · split
    · rename_i hattribute
      exact h view _ _ htoken hroomy hattribute
    · exact List.forall_mem_nil _
  · exact List.forall_mem_nil _

theorem finds_atDirective {name : String}
    {check : View → PlacedToken → Directive → Option String → List Finding}
    (h : ∀ view raw directive value, view.token ∈ view.tokens →
      (∀ token ∈ view.tokens, token.Roomy) → view.token.attribute? = some (raw, value) →
      ∀ finding ∈ check view view.token directive value, Found ruleName view finding) :
    Finds ruleName (atDirective name check) := by
  refine finds_atAttributes fun view raw value htoken hroomy hattribute => ?_
  split
  · split
    · exact h view raw _ value htoken hroomy hattribute
    · exact List.forall_mem_nil _
  · exact List.forall_mem_nil _

theorem finds_atText {check : View → PlacedToken → String → List Finding}
    (h : ∀ view text, view.token ∈ view.tokens → (∀ token ∈ view.tokens, token.Roomy) →
      ∀ finding ∈ check view view.token text, Found ruleName view finding) :
    Finds ruleName (atText check) := by
  intro event view _ htoken hroomy
  unfold atText
  split
  · split
    · exact h view _ htoken hroomy
    · exact List.forall_mem_nil _
  · exact List.forall_mem_nil _

theorem finds_atElements {check : View → PlacedToken → Element → List Finding}
    (h : ∀ view element, view.token ∈ view.tokens → (∀ token ∈ view.tokens, token.Roomy) →
      view.element? = some element → ∀ finding ∈ check view view.token element,
        Found ruleName view finding) :
    Finds ruleName (atElements check) := by
  intro event view _ htoken hroomy
  unfold atElements
  split
  · split
    · rename_i helement
      exact h view _ htoken hroomy helement
    · exact List.forall_mem_nil _
  · exact List.forall_mem_nil _

theorem finds_atConditional {name : String}
    {messages : View → Element → Directive → Option String → List (Bool × String)} :
    Finds ruleName (atConditional name messages) := by
  refine finds_atDirective fun view raw directive value htoken hroomy _ => ?_
  split
  · exact List.forall_mem_map.2 fun _ _ => .over htoken (hroomy _ htoken).covers_nameRange
  · exact List.forall_mem_nil _

/-! ### Iteration -/

/-- A token that a view has under some number. -/
theorem mem_tokens_of_token? {i : Nat} (h : view.token? i = some token) : token ∈ view.tokens :=
  Array.mem_of_getElem? h

theorem mem_tokens_of_findAttribute? {element : Element} {names : List String}
    (h : view.findAttribute? element names = some token) : token ∈ view.tokens := by
  obtain ⟨i, -, hi⟩ := List.mem_filterMap.1 (List.mem_of_find?_eq_some h)
  exact mem_tokens_of_token? hi

theorem found_keyFindings (hroomy : ∀ token ∈ view.tokens, token.Roomy) (aliases : List String)
    (levels : Nat) (own : Bool) (id : Nat) :
    ∀ finding ∈ keyFindings view aliases levels own id, Found ruleName view finding := by
  induction levels generalizing own id with
  | zero => exact List.forall_mem_nil _
  | succ levels ih =>
    rw [keyFindings]
    split
    · exact List.forall_mem_nil _
    · split
      · rename_i key hkey
        have htoken := mem_tokens_of_findAttribute? hkey
        split
        · exact List.forall_mem_nil _
        · exact List.forall_mem_singleton.2 (.over htoken (hroomy key htoken).covers)
      · split
        · -- Below a `template` the children are searched one level less deep.
          refine List.forall_mem_flatMap.2 fun child _ => ?_
          split
          · exact List.forall_mem_nil _
          · exact ih false child
        · split
          · refine List.forall_mem_map.2 fun token htoken => ?_
            have htoken := mem_tokens_of_token? (Option.mem_toList.1 htoken)
            exact .over htoken (hroomy token htoken).covers
          · exact List.forall_mem_nil _

theorem found_iterationFindings (htoken : token ∈ view.tokens)
    (hroomy : ∀ token ∈ view.tokens, token.Roomy) (value : String) :
    ∀ finding ∈ iterationFindings view token value, Found ruleName view finding := by
  simp only [iterationFindings]
  split
  · split
    · exact List.forall_mem_singleton.2 (.over htoken (hroomy token htoken).covers_valueRange)
    · split
      · exact found_keyFindings hroomy _ _ _ _
      · exact List.forall_mem_nil _
  · exact List.forall_mem_nil _

/-! ### The deprecated property -/

theorem exists_append_of_mem_scopedSlotsOffsets {directive : Directive} {expression : List Char}
    {offset : Nat} (h : offset ∈ scopedSlotsOffsets directive expression) :
    ∃ before rest, expression = before ++ (scopedSlots.toList ++ rest) ∧
      offset = Text.byteLength before := by
  -- The left side of a `v-for` only takes some of the places away.
  have hmem : offset ∈ (Expression.occurrences expression).filterMap fun occurrence =>
      if occurrence.name == scopedSlots.toList then some (occurrence.offset expression)
      else none := by
    simp only [scopedSlotsOffsets] at h
    split at h
    · split at h
      · exact (List.mem_filter.1 h).1
      · exact absurd h List.not_mem_nil
    · exact h
  obtain ⟨occurrence, ho, hoffset⟩ := List.mem_filterMap.1 hmem
  obtain ⟨before, hexpression, hbytes⟩ := Expression.exists_append_of_mem_occurrences ho
  split at hoffset
  · rename_i hname
    rw [LawfulBEq.eq_of_beq hname] at hexpression
    cases hoffset
    exact ⟨before, occurrence.rest, hexpression, hbytes⟩
  · cases hoffset

/-- The whole of the deprecated property stands in the expression. -/
theorem add_le_of_mem_scopedSlotsOffsets {directive : Directive} {expression : List Char}
    {offset : Nat} (h : offset ∈ scopedSlotsOffsets directive expression) :
    offset + scopedSlots.utf8ByteSize ≤ Text.byteLength expression := by
  obtain ⟨before, rest, rfl, rfl⟩ := exists_append_of_mem_scopedSlotsOffsets h
  rw [Text.utf8ByteSize_eq, Text.byteLength_append, Text.byteLength_append]
  omega

/-! ### The rules that there are -/

theorem finds_noteUsedBindings : Finds noteUsedBindings.name noteUsedBindings.check := by
  dsimp only [noteUsedBindings]
  refine .both (finds_atElements fun view element _ _ _ => ?_)
    (.both (finds_atAttributes fun view raw value _ _ _ => ?_)
      (finds_atText fun view text _ _ => ?_))
  · split
    · exact found_usedBindings _
    · exact List.forall_mem_nil _
  · split
    · exact found_usedBindings _
    · exact List.forall_mem_nil _
  · exact List.forall_mem_flatMap.2 fun _ _ => found_usedBindings _

theorem finds_noScopedSlots : Finds noScopedSlots.name noScopedSlots.check := by
  dsimp only [noScopedSlots]
  refine finds_atAttributes fun view raw value htoken hroomy hattribute => ?_
  split
  · refine List.forall_mem_map.2 fun offset hoffset => ?_
    refine .problem htoken ((hroomy _ htoken).covers_expression hattribute
      (add_le_of_mem_scopedSlotsOffsets hoffset)) (mends_of_map fun edit hedit => ?_)
    exact .slots htoken hattribute hoffset hedit
  · exact List.forall_mem_nil _

/-- The last key of a list is one of its tokens. -/
theorem finds_noTemplateKey : Finds noTemplateKey.name noTemplateKey.check := by
  intro event view _ _ hroomy
  simp only [noTemplateKey]
  split
  · split
    · split
      · exact List.forall_mem_nil _
      · refine List.forall_mem_map.2 fun key hkey => ?_
        have hlast := List.mem_of_getLast? (Option.mem_toList.1 hkey)
        obtain ⟨i, -, hi⟩ := List.mem_filterMap.1 (List.mem_filter.1 hlast).1
        have htoken := mem_tokens_of_token? hi
        exact .over htoken (hroomy key htoken).covers
    · exact List.forall_mem_nil _
  · exact List.forall_mem_nil _

/-- A listener that is found has a token in the list. -/
theorem finds_requireExact : Finds requireExact.name requireExact.check := by
  intro event view _ _ hroomy
  simp only [requireExact]
  split
  · split
    · refine List.forall_mem_map.2 fun token hm => ?_
      obtain ⟨listener, -, hi⟩ := List.mem_filterMap.1 hm
      have htoken := mem_tokens_of_token? hi
      exact .over htoken (hroomy token htoken).covers_nameRange
    · exact List.forall_mem_nil _
  · exact List.forall_mem_nil _

/-- A name is mended only where the rule rejects it. -/
theorem finds_attributeHyphenation (option : Hyphenation) (ignored : List String) :
    Finds (attributeHyphenation option ignored).name
      (attributeHyphenation option ignored).check := by
  dsimp only [attributeHyphenation]
  refine finds_atAttributes fun view raw value htoken hroomy hattribute => ?_
  split
  · rename_i hchecked
    split
    · exact List.forall_mem_nil _
    · rename_i hrejected
      refine List.forall_mem_singleton.2 (.problem htoken (hroomy _ htoken).covers_nameRange
        (mends_of_map fun edit hedit => ?_))
      refine .attributeName htoken hattribute hchecked ?_ hedit
      rintro rfl
      simp at hrejected
  · exact List.forall_mem_nil _

theorem finds_componentCasing (casing : ComponentCasing) :
    Finds (componentCasing casing).name (componentCasing casing).check := by
  dsimp only [componentCasing]
  refine finds_atElements fun view element htoken hroomy helement => ?_
  split
  · rename_i hrejected
    simp only [Bool.and_eq_true, beq_iff_eq, Bool.not_eq_true'] at hrejected
    refine List.forall_mem_singleton.2 (.problem htoken (hroomy _ htoken).covers
      (mends_of_map fun edit hedit => ?_))
    exact .elementName rfl htoken helement hrejected.1.1 hrejected.1.2 hrejected.2 hedit
  · exact List.forall_mem_nil _

theorem finds_thisInTemplate (option : ThisOption) :
    Finds (thisInTemplate option).name (thisInTemplate option).check := by
  simp only [thisInTemplate]
  split
  · exact fun _ _ _ _ _ => List.forall_mem_nil _
  · refine .both (finds_atAttributes fun view raw value htoken hroomy hattribute => ?_)
      (finds_atText fun view text htoken hroomy => ?_)
    · split
      · refine List.forall_mem_map.2 fun offset _ => ?_
        exact found_thisFinding htoken (hroomy _ htoken)
          (Nat.le_trans (hroomy _ htoken).start_le_expressionStart (Nat.le_add_right _ _))
      · exact List.forall_mem_nil _
    · refine List.forall_mem_flatMap.2 fun found _ => List.forall_mem_map.2 fun offset _ => ?_
      refine found_thisFinding htoken (hroomy _ htoken) ?_
      omega

theorem finds_singleRoot : Finds singleRoot.name singleRoot.check := by
  dsimp only [singleRoot]
  refine .both (finds_atElements fun view element htoken hroomy _ => ?_)
    (.both (finds_atDirective fun view raw directive value htoken hroomy _ => ?_)
      (finds_atText fun view text htoken hroomy => ?_))
  · split
    · exact List.forall_mem_map.2 fun _ _ => .over htoken (hroomy _ htoken).covers
    · exact List.forall_mem_nil _
  · exact found_ite htoken (hroomy _ htoken).covers_nameRange
  · split
    · exact List.forall_mem_nil _
    · exact List.forall_mem_singleton.2 (.over htoken (hroomy _ htoken).covers)

/-- What the rules that there are find at tokens lies within them. -/
theorem BuiltIn.finds {rule : Rule} (h : rule.BuiltIn) : Finds rule.name rule.check := by
  cases h with
  | noteUsedBindings => exact finds_noteUsedBindings
  | noScopedSlots => exact finds_noScopedSlots
  | noFilter =>
    dsimp only [Rule.noFilter]
    refine .both (finds_atAttributes fun view raw value htoken hroomy hattribute => ?_)
      (finds_atText fun view text htoken hroomy => ?_)
    · split
      · exact found_ite htoken ((hroomy _ htoken).covers_expressionRange hattribute)
      · exact List.forall_mem_nil _
    · exact found_ite htoken (hroomy _ htoken).covers
  | noRepeatedCondition =>
    dsimp only [Rule.noRepeatedCondition]
    refine finds_atDirective fun view raw directive value htoken hroomy hattribute => ?_
    cases value with
    | none => exact List.forall_mem_nil _
    | some value =>
      exact found_ite htoken ((hroomy _ htoken).covers_expressionRange hattribute)
  | noDuplicateAttributes =>
    dsimp only [Rule.noDuplicateAttributes]
    refine finds_atAttributes fun view raw value htoken hroomy _ => ?_
    split
    · exact found_ite htoken (hroomy _ htoken).covers_nameRange
    · exact List.forall_mem_nil _
  | noTemplateKey => exact finds_noTemplateKey
  | noTextareaMustache =>
    dsimp only [Rule.noTextareaMustache]
    exact finds_atText fun view text htoken hroomy =>
      found_ite htoken (hroomy _ htoken).covers
  | noConditionedIteration =>
    dsimp only [Rule.noConditionedIteration]
    refine finds_atDirective fun view raw directive value htoken hroomy _ => ?_
    split
    · exact List.forall_mem_map.2 fun _ _ => .over htoken (hroomy _ htoken).covers_nameRange
    · exact List.forall_mem_nil _
  | requireComponentIs =>
    dsimp only [Rule.requireComponentIs]
    exact finds_atElements fun view element htoken hroomy _ =>
      found_ite htoken (hroomy _ htoken).covers
  | requireKey =>
    dsimp only [Rule.requireKey]
    refine finds_atDirective fun view raw directive value htoken hroomy _ => ?_
    split
    · split
      · exact List.forall_mem_nil _
      · exact List.forall_mem_singleton.2 (.over htoken ((hroomy _ htoken).covers_front 5))
    · exact List.forall_mem_nil _
  | requireExact => exact finds_requireExact
  | validRoot =>
    intro event view hevent _ _
    cases event with
    | block => exact absurd rfl hevent
    | _ => exact List.forall_mem_nil _
  | validElseIf => exact finds_atConditional
  | validElse => exact finds_atConditional
  | validIf => exact finds_atConditional
  | validFor =>
    dsimp only [Rule.validFor]
    refine finds_atDirective fun view raw directive value htoken hroomy _ => ?_
    have hname := (hroomy _ htoken).covers_nameRange
    simp only [List.forall_mem_append]
    refine ⟨⟨⟨found_ite htoken hname, found_ite htoken hname⟩, found_ite htoken hname⟩, ?_⟩
    split
    · exact List.forall_mem_nil _
    · exact found_iterationFindings htoken hroomy _
  | validOn =>
    dsimp only [Rule.validOn]
    refine finds_atDirective fun view raw directive value htoken hroomy _ => ?_
    have hname := (hroomy _ htoken).covers_nameRange
    split
    · exact List.forall_mem_singleton.2 (.over htoken hname)
    · split
      · exact List.forall_mem_singleton.2 (.over htoken hname)
      · exact List.forall_mem_map.2 fun _ _ => .over htoken hname
  | attributeHyphenation option ignored => exact finds_attributeHyphenation option ignored
  | componentCasing casing => exact finds_componentCasing casing
  | thisInTemplate option => exact finds_thisInTemplate option
  | singleRoot => exact finds_singleRoot

/-- Of the template block as a whole, a problem at most is found, between its tags. -/
theorem BuiltIn.findsBlock {rule : Rule} (h : rule.BuiltIn) {finding : Finding}
    (hfinding : finding ∈ rule.check .block view) {text : List Char}
    (hblock : view.document.template.StandsIn text) :
    ∃ messageId start stop, finding = .over messageId [] (start, stop) ∧
      view.document.template.startTag.1 ≤ start ∧ start ≤ stop ∧
      stop ≤ view.document.template.endTag.2 := by
  cases h with
  | validRoot =>
    have := hblock.startTag_le
    have := hblock.startTag_eq
    have := hblock.endTag_eq
    have := hblock.endTag_le
    simp only [Rule.validRoot] at hfinding
    split at hfinding
    · exact absurd hfinding List.not_mem_nil
    · split at hfinding
      · rw [List.mem_singleton.1 hfinding]
        exact ⟨_, _, _, rfl, by omega, by omega, by omega⟩
      · rw [List.mem_singleton.1 hfinding]
        exact ⟨_, _, _, rfl, by omega, by omega, by omega⟩
      · exact absurd hfinding List.not_mem_nil
  | thisInTemplate option =>
    simp only [Rule.thisInTemplate] at hfinding
    split at hfinding <;> exact absurd hfinding List.not_mem_nil
  | _ => exact absurd hfinding List.not_mem_nil

end Rule

end PugLint
