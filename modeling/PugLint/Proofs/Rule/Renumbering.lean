import PugLint.Proofs.Element.Renumbering
import PugLint.Proofs.Rule.Problems

/-!
# Rules where tokens have other numbers

Rules find tokens by their numbers, and what they say of a token does not depend on them. Where
tokens have other numbers and the elements are the same ones up to these, most rules find the same.
The exceptions are rules that look at the attributes of a list so far, as lists may be different
ones.

* `View.Renumbered`: what rules may know of a place, with other numbers of tokens;
* `Rule.ReadsList`: the rules that look at a list of attributes;
* `Rule.BuiltIn.check_renumbered`: the other rules find the same.
-/

namespace PugLint

variable {number : Nat → Nat}

/-! ### Elements -/

namespace ElementTree

variable {tree tree' : ElementTree}
  (h : tree'.nodes = tree.nodes.map (Element.renumber number))

include h

theorem siblingsFrom_renumber (fuel : Nat) (first : Option Nat) :
    tree'.siblingsFrom fuel first = tree.siblingsFrom fuel first := by
  induction fuel generalizing first with
  | zero => cases first <;> rfl
  | succ fuel ih =>
    cases first with
    | none => rfl
    | some id =>
      rw [siblingsFrom, siblingsFrom, ih, h, Array.getElem?_map, Option.bind_map]
      rfl

theorem children_renumber (id : Nat) : tree'.children id = tree.children id := by
  rw [children, children, siblingsFrom_renumber h, h, Array.size_map, Array.getElem?_map,
    Option.bind_map]
  rfl

theorem descendants_renumber (id : Nat) : tree'.descendants id = tree.descendants id := by
  have hpreorder (fuel : Nat) (pending : List Nat) :
      tree'.preorder fuel pending = tree.preorder fuel pending := by
    induction fuel generalizing pending with
    | zero => cases pending <;> rfl
    | succ fuel ih =>
      cases pending with
      | nil => rfl
      | cons id pending => rw [preorder, preorder, children_renumber h, ih]
  rw [descendants, descendants, hpreorder, children_renumber h, h, Array.size_map]

end ElementTree

/-! ### Views -/

/-- What a rule may know of a place, where tokens have other numbers. -/
structure View.Renumbered (number : Nat → Nat) (view view' : View) : Prop where
  token? : ∀ i, view'.token? (number i) = view.token? i
  nodes_eq : view'.tree.nodes = view.tree.nodes.map (Element.renumber number)
  script_eq : view'.document.script = view.document.script
  index_eq : view'.index = number view.index
  elementAt?_eq : view'.tree.elementAt? view'.index = view.tree.elementAt? view.index
  ownerId?_eq : view'.ownerId? = view.ownerId?
  conditions_eq : view'.trackers.chainBefore.map Chain.conditions =
    view.trackers.chainBefore.map Chain.conditions

namespace View.Renumbered

variable {view view' : View} (h : view.Renumbered number view')

include h

theorem token_eq : view'.token = view.token := by
  rw [View.token, View.token, h.index_eq, h.token?]

theorem node?_eq (id : Nat) : view'.node? id = (view.node? id).map (Element.renumber number) := by
  rw [View.node?, View.node?, h.nodes_eq, Array.getElem?_map]

theorem element?_eq : view'.element? = view.element?.map (Element.renumber number) := by
  rw [View.element?, View.element?, h.elementAt?_eq]
  cases view.tree.elementAt? view.index with
  | none => rfl
  | some id => exact h.node?_eq id

theorem owner?_eq : view'.owner? = view.owner?.map (Element.renumber number) := by
  rw [View.owner?, View.owner?, h.ownerId?_eq]
  cases view.ownerId? with
  | none => rfl
  | some id => exact h.node?_eq id

/-- The attributes of an element are the same tokens. -/
theorem attributes_eq (element : Element) :
    view'.attributes (element.renumber number) = view.attributes element := by
  rw [View.attributes, View.attributes, Element.renumber, List.filterMap_map]
  exact congrArg (element.attributes.filterMap ·) (funext h.token?)

theorem findAttribute?_eq (element : Element) (names : List String) :
    view'.findAttribute? (element.renumber number) names = view.findAttribute? element names := by
  rw [View.findAttribute?, View.findAttribute?, h.attributes_eq]

theorem findDirective?_eq (element : Element) (name : String) :
    view'.findDirective? (element.renumber number) name = view.findDirective? element name := by
  rw [View.findDirective?, View.findDirective?, h.attributes_eq]

theorem hasDirective_eq (element : Element) (name : String) :
    view'.hasDirective (element.renumber number) name = view.hasDirective element name := by
  rw [View.hasDirective, View.hasDirective, h.findDirective?_eq]

theorem isCustomComponent_eq (element : Element) :
    view'.isCustomComponent (element.renumber number) = view.isCustomComponent element := by
  rw [View.isCustomComponent, View.isCustomComponent, h.attributes_eq]
  rfl

theorem isNone_chainBefore :
    view'.trackers.chainBefore.isNone = view.trackers.chainBefore.isNone := by
  rw [← Option.isNone_map (f := Chain.conditions), h.conditions_eq, Option.isNone_map]

theorem any_conditions (p : List String → Bool) :
    view'.trackers.chainBefore.any (p ·.conditions) =
      view.trackers.chainBefore.any (p ·.conditions) := by
  have hmap (chain : Option Chain) : chain.any (p ·.conditions) =
      (chain.map Chain.conditions).any p := by
    cases chain <;> rfl
  rw [hmap, hmap, h.conditions_eq]

end View.Renumbered

/-! ### Rules -/

namespace Rule

variable {view view' : View}

/-- A check finds the same in both views. The template block as a whole is left out. -/
def Agrees (view view' : View) (check : Event → View → List Finding) : Prop :=
  ∀ event, event ≠ .block → check event view' = check event view

theorem Agrees.both {first second : Event → View → List Finding}
    (h₁ : Agrees view view' first) (h₂ : Agrees view view' second) :
    Agrees view view' (Rule.both first second) := by
  intro event hevent
  rw [Rule.both, Rule.both, h₁ event hevent, h₂ event hevent]

variable (hview : view.Renumbered number view')

include hview

theorem agrees_atAttributes
    {check : View → PlacedToken → String → Option String → List Finding}
    (h : ∀ raw value, check view' view.token raw value = check view view.token raw value) :
    Agrees view view' (atAttributes check) := by
  intro event _
  cases event with
  | «attribute» =>
    simp only [atAttributes, hview.token_eq]
    split
    · exact h _ _
    · rfl
  | _ => rfl

theorem agrees_atDirective {name : String}
    {check : View → PlacedToken → Directive → Option String → List Finding}
    (h : ∀ directive value,
      check view' view.token directive value = check view view.token directive value) :
    Agrees view view' (atDirective name check) := by
  refine agrees_atAttributes hview fun raw value => ?_
  split
  · split
    · exact h _ _
    · rfl
  · rfl

theorem agrees_atText {check : View → PlacedToken → String → List Finding}
    (h : ∀ text, check view' view.token text = check view view.token text) :
    Agrees view view' (atText check) := by
  intro event _
  cases event with
  | text =>
    simp only [atText, hview.token_eq]
    split
    · exact h _
    · rfl
  | _ => rfl

theorem agrees_atElements {check : View → PlacedToken → Element → List Finding}
    (h : ∀ element, check view' view.token (element.renumber number) =
      check view view.token element) :
    Agrees view view' (atElements check) := by
  intro event _
  cases event with
  | element =>
    simp only [atElements, hview.token_eq, hview.element?_eq]
    cases view.element? with
    | none => rfl
    | some element => exact h element
  | _ => rfl

theorem agrees_atConditional {name : String}
    {messages : View → Element → Directive → Option String → List (Bool × String)}
    (h : ∀ element directive value, messages view' (element.renumber number) directive value =
      messages view element directive value) :
    Agrees view view' (atConditional name messages) := by
  refine agrees_atDirective hview fun directive value => ?_
  rw [hview.owner?_eq]
  cases view.owner? with
  | none => rfl
  | some element => exact congrArg (fun found => (firstMessage? found).toList.map _) (h ..)

/-! ### Iteration -/

theorem rendersComponent_renumber (element : Element) :
    rendersComponent view' (element.renumber number) = rendersComponent view element := by
  rw [rendersComponent, rendersComponent, hview.findAttribute?_eq]
  rfl

theorem iteratesOver_renumber (element : Element) (names : List String) :
    iteratesOver view' (element.renumber number) names = iteratesOver view element names := by
  rw [iteratesOver, iteratesOver, hview.findDirective?_eq]

theorem keyFindings_renumber (aliases : List String) (levels : Nat) (own : Bool) (id : Nat) :
    keyFindings view' aliases levels own id = keyFindings view aliases levels own id := by
  induction levels generalizing own id with
  | zero => rfl
  | succ levels ih =>
    have hiterates (child : Nat) :
        ((view'.node? child).any fun node => iteratesOver view' node aliases) =
          (view.node? child).any fun node => iteratesOver view node aliases := by
      rw [hview.node?_eq, Option.any_map]
      exact congrArg (Option.any · _) (funext fun node => iteratesOver_renumber hview node aliases)
    rw [keyFindings, keyFindings, hview.node?_eq]
    cases view.node? id with
    | none => rfl
    | some element =>
      simp only [Option.map_some, hview.findAttribute?_eq, rendersComponent_renumber hview,
        ElementTree.children_renumber hview.nodes_eq, hiterates, ih]
      simp only [Element.renumber, hview.token?]

theorem iterationFindings_renumber (token : PlacedToken) (value : String) :
    iterationFindings view' token value = iterationFindings view token value := by
  have hsize : view'.tree.nodes.size = view.tree.nodes.size := by
    rw [hview.nodes_eq, Array.size_map]
  simp only [iterationFindings, hview.ownerId?_eq, hsize, keyFindings_renumber hview]

theorem needsNoKey_renumber (id : Nat) (element : Element) :
    needsNoKey view' id (element.renumber number) = needsNoKey view id element := by
  have hkeyed : hasKeyedDescendant view' id = hasKeyedDescendant view id := by
    rw [hasKeyedDescendant, hasKeyedDescendant, ElementTree.descendants_renumber hview.nodes_eq]
    refine congrArg _ (funext fun child => ?_)
    rw [hview.node?_eq, Option.any_map]
    refine congrArg (Option.any · _) (funext fun node => ?_)
    rw [hview.findAttribute?_eq]
    rfl
  rw [needsNoKey, needsNoKey, hview.findAttribute?_eq, hkeyed, hview.isCustomComponent_eq]
  rfl

/-! ### The rules that there are -/

omit hview in
/-- The rules that look at the attributes of a list so far. -/
inductive ReadsList : Rule → Prop where
  | noDuplicateAttributes (coexistence : Coexistence) :
    ReadsList (.noDuplicateAttributes coexistence)
  | noTemplateKey : ReadsList .noTemplateKey
  | requireExact : ReadsList .requireExact

/-- The rules that do not look at lists find the same. -/
theorem BuiltIn.check_renumbered {rule : Rule} (h : rule.BuiltIn) (hlist : ¬rule.ReadsList) :
    Agrees view view' rule.check := by
  cases h with
  | noDuplicateAttributes coexistence => exact absurd (.noDuplicateAttributes coexistence) hlist
  | noTemplateKey => exact absurd .noTemplateKey hlist
  | requireExact => exact absurd .requireExact hlist
  | noteUsedBindings =>
    dsimp only [Rule.noteUsedBindings]
    have hused (names : List String) : usedBindings view' names = usedBindings view names := by
      rw [usedBindings, usedBindings, hview.script_eq]
    refine .both (agrees_atElements hview fun element => ?_)
      (.both (agrees_atAttributes hview fun raw value => ?_)
        (agrees_atText hview fun text => ?_))
    · simp only [hused]
      rfl
    · simp only [hused]
    · simp only [hused]
  | noScopedSlots =>
    dsimp only [Rule.noScopedSlots]
    exact agrees_atAttributes hview fun _ _ => rfl
  | noFilter =>
    dsimp only [Rule.noFilter]
    exact .both (agrees_atAttributes hview fun _ _ => rfl) (agrees_atText hview fun _ => rfl)
  | noRepeatedCondition =>
    dsimp only [Rule.noRepeatedCondition]
    refine agrees_atDirective hview fun directive value => ?_
    rw [hview.any_conditions (·.contains (Conditional.conditionOf value))]
  | noTextareaMustache =>
    dsimp only [Rule.noTextareaMustache]
    refine agrees_atText hview fun text => ?_
    rw [hview.owner?_eq, Option.any_map]
    rfl
  | noConditionedIteration allowsAlias =>
    dsimp only [Rule.noConditionedIteration]
    refine agrees_atDirective hview fun directive value => ?_
    rw [hview.owner?_eq]
    cases view.owner? with
    | none => rfl
    | some element => simp only [Option.map_some, Option.bind_some, hview.findDirective?_eq]
  | requireComponentIs =>
    dsimp only [Rule.requireComponentIs]
    refine agrees_atElements hview fun element => ?_
    rw [hview.findAttribute?_eq]
    rfl
  | requireKey =>
    dsimp only [Rule.requireKey]
    refine agrees_atDirective hview fun directive value => ?_
    rw [hview.ownerId?_eq, hview.owner?_eq]
    cases view.ownerId? with
    | none => rfl
    | some id =>
      cases view.owner? with
      | none => rfl
      | some element => simp only [Option.map_some, needsNoKey_renumber hview]
  | validRoot =>
    intro event hevent
    cases event with
    | block => exact absurd rfl hevent
    | _ => rfl
  | validElseIf =>
    refine agrees_atConditional hview fun element directive value => ?_
    rw [hview.isNone_chainBefore, hview.hasDirective_eq, hview.hasDirective_eq]
  | validElse =>
    refine agrees_atConditional hview fun element directive value => ?_
    rw [hview.isNone_chainBefore, hview.hasDirective_eq, hview.hasDirective_eq]
  | validIf =>
    refine agrees_atConditional hview fun element directive value => ?_
    rw [hview.hasDirective_eq, hview.hasDirective_eq]
  | validFor =>
    dsimp only [Rule.validFor]
    refine agrees_atDirective hview fun directive value => ?_
    rw [iterationFindings_renumber hview]
  | validOn extra =>
    dsimp only [Rule.validOn]
    exact agrees_atDirective hview fun _ _ => rfl
  | attributeHyphenation option ignored =>
    dsimp only [Rule.attributeHyphenation]
    refine agrees_atAttributes hview fun raw value => ?_
    rw [hview.owner?_eq]
    cases view.owner? with
    | none => rfl
    | some element => cases checkedName? raw <;> rfl
  | componentCasing casing =>
    dsimp only [Rule.componentCasing]
    refine agrees_atElements hview fun element => ?_
    rw [hview.script_eq]
    rfl
  | thisInTemplate option =>
    simp only [Rule.thisInTemplate]
    split
    · exact fun _ _ => rfl
    · exact .both (agrees_atAttributes hview fun _ _ => rfl) (agrees_atText hview fun _ => rfl)
  | singleRoot =>
    dsimp only [Rule.singleRoot]
    refine .both (agrees_atElements hview fun element => rfl)
      (.both (agrees_atDirective hview fun directive value => ?_)
        (agrees_atText hview fun text => ?_))
    · rw [hview.owner?_eq, Option.any_map]
      rfl
    · rw [hview.ownerId?_eq]

end Rule

end PugLint
