import PugLint.Registry
import PugLint.Report

/-!
# What rules find

A finding is a problem or the use of a binding. Of the rules that there are, one
alone notes uses: all others find problems and nothing else, whatever their
options.

* `Rule.BuiltIn`: the rules that there are, with any options;
* `Rule.Reports`: a check that finds problems alone, closed under the ways in
  which checks are put together;
* `BuiltIn.reports`: every rule but `Rule.noteUsedBindings` reports.
-/

namespace PugLint.Rule

/-- The rules that there are, with any options. -/
inductive BuiltIn : Rule → Prop where
  | noteUsedBindings : BuiltIn .noteUsedBindings
  | noScopedSlots : BuiltIn .noScopedSlots
  | noFilter : BuiltIn .noFilter
  | noRepeatedCondition : BuiltIn .noRepeatedCondition
  | noDuplicateAttributes (coexistence : Coexistence) :
    BuiltIn (.noDuplicateAttributes coexistence)
  | noTemplateKey : BuiltIn .noTemplateKey
  | noTextareaMustache : BuiltIn .noTextareaMustache
  | noConditionedIteration (allowsAlias : Bool) : BuiltIn (.noConditionedIteration allowsAlias)
  | requireComponentIs : BuiltIn .requireComponentIs
  | requireKey : BuiltIn .requireKey
  | requireExact : BuiltIn .requireExact
  | validRoot : BuiltIn .validRoot
  | validElseIf : BuiltIn .validElseIf
  | validElse : BuiltIn .validElse
  | validFor : BuiltIn .validFor
  | validIf : BuiltIn .validIf
  | validOn (extra : List String) : BuiltIn (.validOn extra)
  | attributeHyphenation (option : Hyphenation) (ignored : List String) :
    BuiltIn (.attributeHyphenation option ignored)
  | componentCasing (casing : ComponentCasing) : BuiltIn (.componentCasing casing)
  | thisInTemplate (option : ThisOption) : BuiltIn (.thisInTemplate option)
  | singleRoot : BuiltIn .singleRoot

/-! ### Problems -/

/-- No finding is the use of a binding. -/
def Problems (findings : List Finding) : Prop :=
  ∀ finding ∈ findings, finding.usedName? = none

@[simp]
theorem problems_nil : Problems [] :=
  fun _ h => absurd h List.not_mem_nil

@[simp]
theorem problems_cons {finding : Finding} {findings : List Finding} :
    Problems (finding :: findings) ↔ finding.usedName? = none ∧ Problems findings :=
  List.forall_mem_cons

@[simp]
theorem problems_append {findings more : List Finding} :
    Problems (findings ++ more) ↔ Problems findings ∧ Problems more :=
  List.forall_mem_append

@[simp]
theorem problems_map {α : Type} {f : α → Finding} {as : List α} :
    Problems (as.map f) ↔ ∀ a ∈ as, (f a).usedName? = none :=
  List.forall_mem_map

@[simp]
theorem problems_flatMap {α : Type} {f : α → List Finding} {as : List α} :
    Problems (as.flatMap f) ↔ ∀ a ∈ as, Problems (f a) := by
  simp only [Problems, List.mem_flatMap]
  exact ⟨fun h a ha finding hf => h finding ⟨a, ha, hf⟩,
    fun h finding ⟨a, ha, hf⟩ => h a ha finding hf⟩

@[simp]
theorem usedName?_over (messageId : String) (data : List (String × String))
    (range : Nat × Nat) : (Finding.over messageId data range).usedName? = none := rfl

@[simp]
theorem usedName?_problem (messageId : String) (data : List (String × String))
    (start stop : Nat) (fix : Option Fix) :
    (Finding.problem messageId data start stop fix).usedName? = none := rfl

/-! ### Checks -/

/-- A check finds problems alone. -/
def Reports (check : Event → View → List Finding) : Prop :=
  ∀ event view, Problems (check event view)

variable {first second : Event → View → List Finding}

theorem Reports.both (h₁ : Reports first) (h₂ : Reports second) :
    Reports (Rule.both first second) :=
  fun event view => problems_append.2 ⟨h₁ event view, h₂ event view⟩

theorem reports_atAttributes
    {check : View → PlacedToken → String → Option String → List Finding}
    (h : ∀ view token raw value, Problems (check view token raw value)) :
    Reports (atAttributes check) := by
  intro event view
  unfold atAttributes
  split
  · split
    · exact h _ _ _ _
    · exact problems_nil
  · exact problems_nil

theorem reports_atDirective {name : String}
    {check : View → PlacedToken → Directive → Option String → List Finding}
    (h : ∀ view token directive value, Problems (check view token directive value)) :
    Reports (atDirective name check) := by
  refine reports_atAttributes fun view token raw value => ?_
  split
  · split
    · exact h _ _ _ _
    · exact problems_nil
  · exact problems_nil

theorem reports_atText {check : View → PlacedToken → String → List Finding}
    (h : ∀ view token text, Problems (check view token text)) : Reports (atText check) := by
  intro event view
  unfold atText
  split
  · split
    · exact h _ _ _
    · exact problems_nil
  · exact problems_nil

theorem reports_atElements {check : View → PlacedToken → Element → List Finding}
    (h : ∀ view token element, Problems (check view token element)) :
    Reports (atElements check) := by
  intro event view
  unfold atElements
  split
  · split
    · exact h _ _ _
    · exact problems_nil
  · exact problems_nil

theorem reports_atConditional {name : String}
    {messages : View → Element → Directive → Option String → List (Bool × String)} :
    Reports (atConditional name messages) := by
  refine reports_atDirective fun view token directive value => ?_
  split
  · simp
  · exact problems_nil

/-! ### Iteration -/

theorem problems_keyFindings (view : View) (aliases : List String) (levels : Nat) (own : Bool)
    (id : Nat) : Problems (keyFindings view aliases levels own id) := by
  induction levels generalizing own id with
  | zero => exact problems_nil
  | succ levels ih =>
    rw [keyFindings]
    split
    · exact problems_nil
    · split
      · split <;> simp
      · split
        · -- Below a `template` the children are searched one level less deep.
          refine problems_flatMap.2 fun child _ => ?_
          split
          · exact problems_nil
          · exact ih false child
        · split <;> simp

theorem problems_iterationFindings (view : View) (token : PlacedToken) (value : String) :
    Problems (iterationFindings view token value) := by
  simp only [iterationFindings]
  split
  · split
    · simp
    · split
      · exact problems_keyFindings _ _ _ _ _
      · exact problems_nil
  · exact problems_nil

/-! ### The rules that there are -/

/-- Every rule but the one that notes uses finds problems alone. -/
theorem BuiltIn.reports {rule : Rule} (h : rule.BuiltIn)
    (hname : rule.name ≠ Rule.noteUsedBindings.name) : Reports rule.check := by
  cases h with
  | noteUsedBindings => exact absurd rfl hname
  | noScopedSlots =>
    dsimp only [Rule.noScopedSlots]
    refine reports_atAttributes fun view token raw value => ?_
    split <;> simp
  | noFilter =>
    dsimp only [Rule.noFilter]
    refine .both (reports_atAttributes fun view token raw value => ?_)
      (reports_atText fun view token text => ?_)
    · split
      · split <;> simp
      · simp
    · split <;> simp
  | noRepeatedCondition =>
    dsimp only [Rule.noRepeatedCondition]
    refine reports_atDirective fun view token directive value => ?_
    split <;> simp
  | noDuplicateAttributes =>
    dsimp only [Rule.noDuplicateAttributes]
    refine reports_atAttributes fun view token raw value => ?_
    split
    · split <;> simp
    · simp
  | noTemplateKey =>
    intro event view
    simp only [Rule.noTemplateKey]
    split
    · split
      · split <;> simp
      · simp
    · simp
  | noTextareaMustache =>
    dsimp only [Rule.noTextareaMustache]
    refine reports_atText fun view token text => ?_
    split <;> simp
  | noConditionedIteration =>
    dsimp only [Rule.noConditionedIteration]
    refine reports_atDirective fun view token directive value => ?_
    split <;> simp
  | requireComponentIs =>
    dsimp only [Rule.requireComponentIs]
    refine reports_atElements fun view token element => ?_
    split <;> simp
  | requireKey =>
    dsimp only [Rule.requireKey]
    refine reports_atDirective fun view token directive value => ?_
    split
    · split <;> simp
    · simp
  | requireExact =>
    intro event view
    simp only [Rule.requireExact]
    split
    · split <;> simp
    · simp
  | validRoot =>
    intro event view
    simp only [Rule.validRoot]
    split
    · split
      · simp
      · split <;> simp
    · simp
  | validElseIf => exact reports_atConditional
  | validElse => exact reports_atConditional
  | validIf => exact reports_atConditional
  | validFor =>
    dsimp only [Rule.validFor]
    refine reports_atDirective fun view token directive value => ?_
    have hat (condition : Bool) (messageId : String) :
        Problems (if condition then [.over messageId [] token.nameRange] else []) := by
      split <;> simp
    simp only [problems_append]
    refine ⟨⟨⟨hat _ _, hat _ _⟩, hat _ _⟩, ?_⟩
    split
    · simp
    · exact problems_iterationFindings _ _ _
  | validOn =>
    dsimp only [Rule.validOn]
    refine reports_atDirective fun view token directive value => ?_
    split
    · simp
    · split <;> simp
  | attributeHyphenation =>
    dsimp only [Rule.attributeHyphenation]
    refine reports_atAttributes fun view token raw value => ?_
    split
    · split <;> simp
    · simp
  | componentCasing =>
    dsimp only [Rule.componentCasing]
    refine reports_atElements fun view token element => ?_
    split <;> simp
  | thisInTemplate option =>
    simp only [Rule.thisInTemplate]
    split
    · exact fun _ _ => problems_nil
    · refine .both (reports_atAttributes fun view token raw value => ?_)
        (reports_atText fun view token text => ?_)
      · split <;> simp [thisFinding]
      · simp [thisFinding]
  | singleRoot =>
    dsimp only [Rule.singleRoot]
    refine .both (reports_atElements fun view token element => ?_)
      (.both (reports_atDirective fun view token directive value => ?_)
        (reports_atText fun view token text => ?_))
    · split <;> simp
    · split <;> simp
    · split <;> simp

end PugLint.Rule
