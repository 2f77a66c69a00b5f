import PugLint.Proofs.Rule.Correspondence
import PugLint.Proofs.Rule.Renumbering

/-!
# Rules at a list in two parts

Three rules compare the attributes of a list with each other: duplicates, the key of a `template`
with its `v-for`, and listeners that should be exact. They look at one list at a time. If a list is
in two parts, they find in the parts what they find in the list, unless an attribute is compared
with one of the other part alone.

* `Rule.Parts`: no attribute is compared with one of the other part alone;
* `Rule.agrees_noDuplicateAttributes`: duplicates of an attribute;
* `Rule.templateKeys_append`: keys in both parts;
* `Rule.inexactAmong_append`: listeners in both parts.
-/

namespace PugLint

/-! ### Names -/

/-- The name of an attribute. -/
def TokenKind.name? (kind : TokenKind) : Option String :=
  kind.attribute?.map Prod.fst

/-- The name of an attribute. -/
def PlacedToken.name? (token : PlacedToken) : Option String :=
  token.kind.name?

/-- The names of the attributes that some tokens start with. -/
def leadingNames (kinds : List TokenKind) : List String :=
  (kinds.takeWhile (·.attribute?.isSome)).filterMap TokenKind.name?

/-- The names of the attributes that some tokens end with. -/
def trailingNames (kinds : List TokenKind) : List String :=
  (leadingNames kinds.reverse).reverse

theorem leadingNames_append {attributes : List TokenKind}
    (h : ∀ kind ∈ attributes, kind.attribute?.isSome = true) {kind : TokenKind}
    (hkind : kind.attribute? = none) (rest : List TokenKind) :
    leadingNames (attributes ++ kind :: rest) = attributes.filterMap TokenKind.name? := by
  rw [leadingNames, List.takeWhile_append_of_pos h, List.takeWhile_cons_of_neg (by simp [hkind]),
    List.append_nil]

theorem trailingNames_append {attributes : List TokenKind}
    (h : ∀ kind ∈ attributes, kind.attribute?.isSome = true) {kind : TokenKind}
    (hkind : kind.attribute? = none) (before : List TokenKind) :
    trailingNames (before ++ kind :: attributes) = attributes.filterMap TokenKind.name? := by
  rw [trailingNames, List.reverse_append, List.reverse_cons, List.append_assoc,
    List.singleton_append, leadingNames_append (fun other hm => h other (List.mem_reverse.1 hm))
    hkind, List.filterMap_reverse, List.reverse_reverse]

/-- The numbers of tokens that follow each other lead to what is taken from them. -/
theorem filterMap_range' {α β : Type} (f : α → Option β) (before as rest : List α) :
    (List.range' before.length as.length).filterMap
      (fun i => (before ++ (as ++ rest))[i]?.bind f) = as.filterMap f := by
  induction as generalizing before with
  | nil => rfl
  | cons a as ih =>
    have hhead : (before ++ (a :: as ++ rest))[before.length]? = some a := by simp
    have htail := ih (before ++ [a])
    rw [List.length_append, List.length_singleton, List.append_assoc] at htail
    rw [List.length_cons, List.range'_succ, List.filterMap_cons, hhead, Option.bind_some,
      List.filterMap_cons]
    rw [show before ++ ([a] ++ (as ++ rest)) = before ++ (a :: as ++ rest) from rfl] at htail
    rw [htail]

theorem View.name?_eq (view : View) (i : Nat) :
    view.name? i = (view.token? i).bind PlacedToken.name? := rfl

theorem View.name?_eq_bind (view : View) {tokens : List PlacedToken}
    (h : view.tokens = tokens.toArray) (i : Nat) :
    view.name? i = (tokens.map PlacedToken.kind)[i]?.bind TokenKind.name? := by
  rw [View.name?_eq, View.token?, h, List.getElem?_toArray, List.getElem?_map, Option.bind_map]
  rfl

theorem View.Renumbered.name?_eq {number : Nat → Nat} {view view' : View}
    (h : view.Renumbered number view') (i : Nat) : view'.name? (number i) = view.name? i := by
  rw [View.name?_eq, View.name?_eq, h.token?]

theorem any_filterMap_eq {α β : Type} (f : α → Option β) (p : β → Bool) (as : List α) :
    (as.filterMap f).any p = as.any fun a => (f a).any p := by
  rw [List.any_filterMap]
  exact congrArg as.any (funext fun a => by cases f a <;> rfl)

namespace Rule

/-- Whether an attribute is a duplicate of another one. -/
def duplicates (coexistence : Coexistence) (raw other : String) : Bool :=
  (attributeKey? raw).any fun key => (attributeKey? other).any (clashes coexistence key)

/-- Whether an attribute is a key. -/
def isKey (raw : String) : Bool := keyNames.contains raw

/-- Whether an attribute repeats its element. -/
def repeats (raw : String) : Bool := (Directive.parse? raw).any (·.is "for")

/-- The listener that an attribute is; of a component, only if it is on its root element. -/
def listenerOf? (isComponent : Bool) (token : Nat) (raw : String) : Option Listener :=
  if isComponent && (Text.splitBefore? ".native".toList raw.toList).isNone then none
  else Listener.parse? token raw

/-- Whether a listener should be exact because of another one. -/
def Listener.yields (base other : Listener) : Bool :=
  other.event == base.event && !base.isExact && base.conflicts other

/-- Whether an attribute is a listener that should be exact because of another attribute. -/
def yields (isComponent : Bool) (raw other : String) : Bool :=
  (listenerOf? isComponent 0 raw).any fun base =>
    (listenerOf? isComponent 1 other).any base.yields

/-- A key of attributes that do not repeat the element is neither accompanied by another key nor
    allowed by a `v-for` among other attributes. -/
def KeysApart (names others : List String) : Prop :=
  names.any isKey = true → names.any repeats = false →
    others.any isKey = false ∧ others.any repeats = false

instance (names others : List String) : Decidable (KeysApart names others) :=
  inferInstanceAs (Decidable (names.any isKey = true → names.any repeats = false →
    others.any isKey = false ∧ others.any repeats = false))

/-- A listener that should be exact because of other attributes should be so without them. -/
def ListenersApart (isComponent : Bool) (names others : List String) : Prop :=
  ∀ raw ∈ names, others.any (yields isComponent raw) = true →
    names.any (yields isComponent raw) = true

instance (isComponent : Bool) (names others : List String) :
    Decidable (ListenersApart isComponent names others) :=
  inferInstanceAs (Decidable (∀ raw ∈ names, others.any (yields isComponent raw) = true →
    names.any (yields isComponent raw) = true))

/-- What a rule finds in a list of attributes it finds in two parts of it: no attribute is
    compared with one of the other part alone. The view is that of a token of the list. -/
structure Parts (rule : Rule) (view : View) (first second : List String) : Prop where
  duplicates : ∀ coexistence, rule = .noDuplicateAttributes coexistence →
    ∀ before raw behind, second = before ++ raw :: behind →
      first.any (duplicates coexistence raw) = true →
      before.any (duplicates coexistence raw) = true
  keys : rule = .noTemplateKey → view.trackers.currentTag.any (·.2 == "template") = true →
    KeysApart first second ∧ KeysApart second first
  listeners : rule = .requireExact → ∀ element, view.owner? = some element →
    ListenersApart (view.isCustomComponent element) first second ∧
      ListenersApart (view.isCustomComponent element) second first

/-! ### Duplicates -/

/-- Duplicates of an attribute are the same ones if they are among the earlier attributes. -/
theorem agrees_noDuplicateAttributes {number : Nat → Nat} {view view' : View}
    (hview : view.Renumbered number view') (coexistence : Coexistence)
    (h : ∀ raw value, view.token.attribute? = some (raw, value) →
      (view'.trackers.scope.filter (· < view'.index)).any
          (fun i => (view'.name? i).any (duplicates coexistence raw)) =
        (view.trackers.scope.filter (· < view.index)).any
          fun i => (view.name? i).any (duplicates coexistence raw)) :
    Agrees view view' (noDuplicateAttributes coexistence).check := by
  dsimp only [noDuplicateAttributes]
  intro event _
  cases event with
  | «attribute» =>
    simp only [atAttributes, hview.token_eq]
    cases hvalue : view.token.attribute? with
    | none => rfl
    | some pair =>
      obtain ⟨raw, value⟩ := pair
      cases hkey : attributeKey? raw with
      | none => simp only [hkey]
      | some key =>
        have hduplicates (view : View) (i : Nat) :
            (view.name? i).any (duplicates coexistence raw) =
              ((view.name? i).bind attributeKey?).any (clashes coexistence key) := by
          cases view.name? i with
          | none => rfl
          | some other => simp only [duplicates, hkey, Option.any_some, Option.bind_some]
        have hany := h raw value hvalue
        simp only [hduplicates] at hany
        simp only [hkey, any_earlier_eq, hany]
  | _ => rfl

/-! ### Keys -/

/-- What is found about the keys of a `template`, given the attributes of a list. -/
def templateKeys (attributes : List PlacedToken) : List Finding :=
  if attributes.any fun token => token.name?.any repeats then []
  else
    ((attributes.filter fun token => token.name?.any isKey).getLast?).toList.map fun key =>
      .over "disallow" [] (key.start, key.stop)

theorem check_noTemplateKey (view : View) :
    noTemplateKey.check .exitAttributes view =
      if view.trackers.currentTag.any (·.2 == "template") then
        templateKeys (view.trackers.scope.filterMap view.token?)
      else [] := by
  have hrepeats (token : PlacedToken) : token.name?.any repeats =
      (token.attribute?.bind fun found => Directive.parse? found.1).any (·.is "for") := by
    rw [PlacedToken.name?, TokenKind.name?, PlacedToken.attribute?]
    cases token.kind.attribute? <;> rfl
  have hkey (token : PlacedToken) : token.name?.any isKey =
      token.attribute?.any fun found => keyNames.contains found.1 := by
    rw [PlacedToken.name?, TokenKind.name?, PlacedToken.attribute?]
    cases token.kind.attribute? <;> rfl
  by_cases htemplate : view.trackers.currentTag.any (·.2 == "template") = true
  · simp only [if_pos htemplate, templateKeys, hrepeats, hkey]
    exact if_pos htemplate
  · rw [if_neg htemplate]
    exact if_neg htemplate

/-- Keys in two parts of a list are found as in the list. -/
theorem templateKeys_append {first second : List PlacedToken}
    (h : KeysApart (first.filterMap PlacedToken.name?) (second.filterMap PlacedToken.name?))
    (h' : KeysApart (second.filterMap PlacedToken.name?) (first.filterMap PlacedToken.name?)) :
    templateKeys (first ++ second) = templateKeys first ++ templateKeys second := by
  have hnil (attributes : List PlacedToken) :
      (attributes.filterMap PlacedToken.name?).any isKey = false →
        (attributes.filter fun token => token.name?.any isKey) = [] := by
    intro hkeys
    rw [any_filterMap_eq] at hkeys
    exact List.filter_eq_nil_iff.2 fun token hm => List.any_eq_false.1 hkeys token hm
  simp only [KeysApart, any_filterMap_eq _ repeats] at h h'
  rw [templateKeys, templateKeys, templateKeys, List.any_append, List.filter_append]
  -- Either part has no keys, or neither is found because both are repeated.
  cases hfirst : (first.filterMap PlacedToken.name?).any isKey with
  | false =>
    rw [hnil first hfirst, List.nil_append]
    cases hsecond : (second.filterMap PlacedToken.name?).any isKey with
    | false =>
      rw [hnil second hsecond]
      simp
    | true =>
      cases hrepeats : second.any fun token => token.name?.any repeats with
      | true => simp
      | false =>
        rw [(h' hsecond hrepeats).2]
        simp
  | true =>
    cases hrepeats : first.any fun token => token.name?.any repeats with
    | false =>
      obtain ⟨hsecond, hrepeats'⟩ := h hfirst hrepeats
      rw [hnil second hsecond, hrepeats']
      simp
    | true =>
      cases hsecond : (second.filterMap PlacedToken.name?).any isKey with
      | false =>
        rw [hnil second hsecond]
        simp
      | true =>
        cases hrepeats' : second.any fun token => token.name?.any repeats with
        | true => simp
        | false =>
          have hfalse := (h' hsecond hrepeats').1
          rw [hfirst] at hfalse
          cases hfalse

/-! ### Listeners -/

namespace Listener

/-- A listener that goes further than another one asks for a key that is held down. -/
theorem hasSystemModifier_of_conflicts {base other : Listener}
    (h : base.conflicts other = true) : base.hasSystemModifier = true := by
  by_contra hnone
  have hempty : base.systemText = "" := by
    have hfilter : base.modifiers.filter systemModifiers.contains = [] := by
      rw [hasSystemModifier, List.any_eq_true] at hnone
      exact List.filter_eq_nil_iff.2 fun modifier hm hc => hnone ⟨modifier, hm, hc⟩
    rw [systemText, joined, hfilter, List.mergeSort_nil]
    rfl
  simp only [conflicts, Bool.and_eq_true, bne_iff_ne, hempty] at h
  obtain ⟨⟨-, hne⟩, hpart⟩ := h
  have hother : other.systemText.toList = [] := by
    change (Text.splitBefore? _ []).isSome = true at hpart
    rw [Text.splitBefore?] at hpart
    split at hpart
    · exact List.isEmpty_iff.1 ‹_›
    · cases hpart
  exact hne (String.toList_inj.1 hother.symm)

/-- The listeners that should be exact are those that yield to another one. -/
theorem inexact_eq (listeners : List Listener) :
    inexact listeners = listeners.filter fun base => listeners.any base.yields := by
  refine List.filter_congr fun base hbase => ?_
  have hyields : (listeners.any base.yields) =
      (!base.isExact && (listeners.filter (·.event == base.event)).any (base.conflicts ·)) := by
    rw [List.any_filter, List.and_any_distrib_left]
    refine congrArg listeners.any (funext fun other => ?_)
    rw [yields, Bool.and_right_comm, Bool.and_comm]
  rw [hyields, Bool.and_assoc]
  congr 1
  cases hconflicts : (listeners.filter (·.event == base.event)).any (base.conflicts ·) with
  | false => rw [Bool.and_false]
  | true =>
    obtain ⟨other, -, hother⟩ := List.any_eq_true.1 hconflicts
    rw [Bool.and_true]
    refine List.any_eq_true.2 ⟨base, List.mem_filter.2 ⟨hbase, beq_self_eq_true _⟩, ?_⟩
    exact hasSystemModifier_of_conflicts hother

/-- The number of its token aside, a listener is read from a name. -/
theorem exists_eq_of_listenerOf? {isComponent : Bool} {i : Nat} {raw : String} {base : Listener}
    (h : listenerOf? isComponent i raw = some base) :
    base.token = i ∧ ∀ j, listenerOf? isComponent j raw = some { base with token := j } := by
  simp only [listenerOf?] at h ⊢
  split at h
  · cases h
  · rename_i hkept
    obtain ⟨rest, hrest, rfl⟩ := Option.map_eq_some_iff.1 h
    refine ⟨rfl, fun j => ?_⟩
    rw [if_neg hkept, parse?, hrest, Option.map_some]

/-- Whether a listener yields to another one depends on the names of the two. -/
theorem yields_eq {isComponent : Bool} {i j : Nat} {raw other : String} {base listener : Listener}
    (hbase : listenerOf? isComponent i raw = some base)
    (hlistener : listenerOf? isComponent j other = some listener) (hsame : i = j → raw = other) :
    base.yields listener = Rule.yields isComponent raw other := by
  obtain ⟨rfl, hbase'⟩ := exists_eq_of_listenerOf? hbase
  obtain ⟨rfl, hlistener'⟩ := exists_eq_of_listenerOf? hlistener
  rw [Rule.yields, hbase' 0, hlistener' 1, Option.any_some, Option.any_some]
  by_cases htoken : base.token = listener.token
  · -- A listener does not yield to one of the same name.
    have hraw := hsame htoken
    subst hraw
    rw [htoken] at hbase
    obtain rfl : base = listener := Option.some.inj (hbase.symm.trans hlistener)
    have hself : base.conflicts base = false := by
      simp [conflicts]
    have hself' : ({ base with token := 0 } : Listener).conflicts { base with token := 1 } =
        false := by
      have hsystem : ({ base with token := 0 } : Listener).systemText =
          ({ base with token := 1 } : Listener).systemText := rfl
      simp [conflicts, hsystem]
    rw [yields, yields, hself, hself']
    rfl
  · have hconflicts : ({ base with token := 0 } : Listener).conflicts
        { listener with token := 1 } = base.conflicts listener := by
      simp only [conflicts, bne_iff_ne.2 htoken]
      rfl
    rw [yields, yields, hconflicts]
    rfl

end Listener

theorem listenerOf?_eq_none {isComponent : Bool} {i : Nat} {raw : String}
    (h : listenerOf? isComponent i raw = none) (j : Nat) :
    listenerOf? isComponent j raw = none := by
  by_contra hsome
  obtain ⟨listener, hsome⟩ := Option.ne_none_iff_exists'.1 hsome
  rw [(Listener.exists_eq_of_listenerOf? hsome).2 i] at h
  cases h

theorem listenerAt?_eq (view : View) (isComponent : Bool) (i : Nat) :
    listenerAt? view isComponent i = (view.name? i).bind (listenerOf? isComponent i) := rfl

/-- Whether a listener of a list yields to one of some attributes depends on the names. -/
theorem any_yields_eq {view : View} {isComponent : Bool} {i : Nat} {raw : String}
    {base : Listener} (hraw : view.name? i = some raw)
    (hbase : listenerAt? view isComponent i = some base) (numbers : List Nat) :
    (numbers.filterMap (listenerAt? view isComponent)).any base.yields =
      (numbers.filterMap view.name?).any (yields isComponent raw) := by
  rw [listenerAt?_eq, hraw, Option.bind_some] at hbase
  rw [any_filterMap_eq, any_filterMap_eq]
  refine congrArg numbers.any (funext fun j => ?_)
  rw [listenerAt?_eq]
  cases hother : view.name? j with
  | none => rfl
  | some other =>
    rw [Option.bind_some, Option.any_some]
    cases hlistener : listenerOf? isComponent j other with
    | none =>
      rw [yields, listenerOf?_eq_none hlistener 1]
      cases listenerOf? isComponent 0 raw <;> rfl
    | some listener =>
      refine Listener.yields_eq hbase hlistener fun heq => ?_
      rw [heq, hother] at hraw
      exact (Option.some.inj hraw).symm

/-- What is found about listeners, given the numbers of the attributes of a list. -/
def inexactAmong (view : View) (isComponent : Bool) (numbers : List Nat) : List Finding :=
  ((Listener.inexact (numbers.filterMap (listenerAt? view isComponent))).filterMap fun listener =>
    view.token? listener.token).map fun token => .over "considerExact" [] token.nameRange

theorem check_requireExact (view : View) :
    requireExact.check .exitAttributes view =
      match view.owner? with
      | some element => inexactAmong view (view.isCustomComponent element) view.trackers.scope
      | none => [] := by
  cases howner : view.owner? with
  | none => simp only [requireExact, howner]
  | some element => simp only [requireExact, howner, inexactAmong, ← listeners_eq]

/-- The listeners that are found are those whose names yield to another one of the list. -/
theorem inexactAmong_eq (view : View) (isComponent : Bool) (numbers : List Nat) :
    inexactAmong view isComponent numbers =
      ((numbers.filter fun i => (view.name? i).any fun raw =>
        (numbers.filterMap view.name?).any (yields isComponent raw)).filterMap view.token?).map
          fun token => .over "considerExact" [] token.nameRange := by
  rw [inexactAmong, Listener.inexact_eq, List.filter_filterMap, List.filterMap_filterMap,
    List.filterMap_filter]
  refine congrArg (List.map _ <| numbers.filterMap ·) (funext fun i => ?_)
  cases hraw : view.name? i with
  | none =>
    rw [listenerAt?_eq, hraw]
    rfl
  | some raw =>
    rw [Option.any_some]
    cases hbase : listenerAt? view isComponent i with
    | none =>
      rw [listenerAt?_eq, hraw, Option.bind_some] at hbase
      have hnone : (numbers.filterMap view.name?).any (yields isComponent raw) = false := by
        refine List.any_eq_false.2 fun other _ => ?_
        rw [yields, listenerOf?_eq_none hbase 0]
        exact Bool.false_ne_true
      rw [hnone]
      rfl
    | some base =>
      have htoken : base.token = i := by
        rw [listenerAt?_eq, hraw, Option.bind_some] at hbase
        exact (Listener.exists_eq_of_listenerOf? hbase).1
      rw [Option.filter_some, any_yields_eq hraw hbase]
      split
      · rw [Option.bind_some, htoken]
      · rfl

/-- Listeners in two parts of a list are found as in the list. -/
theorem inexactAmong_append {view : View} {isComponent : Bool} {first second : List Nat}
    (h : ListenersApart isComponent (first.filterMap view.name?) (second.filterMap view.name?))
    (h' : ListenersApart isComponent (second.filterMap view.name?) (first.filterMap view.name?)) :
    inexactAmong view isComponent (first ++ second) =
      inexactAmong view isComponent first ++ inexactAmong view isComponent second := by
  have hpart {i : Nat} {raw : String} {part : List Nat} (hi : i ∈ part)
      (hraw : view.name? i = some raw) : raw ∈ part.filterMap view.name? :=
    List.mem_filterMap.2 ⟨i, hi, hraw⟩
  simp only [inexactAmong_eq, List.filter_append, List.filterMap_append, List.map_append,
    List.any_append]
  congr 3
  · refine List.filter_congr fun i hi => ?_
    cases hraw : view.name? i with
    | none => rfl
    | some raw => exact Bool.or_eq_left_iff_imp.2 (h raw (hpart hi hraw))
  · refine List.filter_congr fun i hi => ?_
    cases hraw : view.name? i with
    | none => rfl
    | some raw => exact Bool.or_eq_right_iff_imp.2 (h' raw (hpart hi hraw))

/-- Listeners of tokens with other numbers are found as well. -/
theorem inexactAmong_map {number : Nat → Nat} {view view' : View}
    (hview : view.Renumbered number view') (isComponent : Bool) (numbers : List Nat) :
    inexactAmong view' isComponent (numbers.map number) =
      inexactAmong view isComponent numbers := by
  have hnames : (numbers.map number).filterMap view'.name? = numbers.filterMap view.name? := by
    rw [List.filterMap_map]
    exact congrArg (numbers.filterMap ·) (funext hview.name?_eq)
  rw [inexactAmong_eq, inexactAmong_eq, hnames, List.filter_map, List.filterMap_map]
  congr 1
  refine congr (congrArg List.filterMap (funext hview.token?)) ?_
  refine congrArg (numbers.filter ·) (funext fun i => ?_)
  rw [Function.comp_apply, hview.name?_eq]

end Rule

end PugLint
