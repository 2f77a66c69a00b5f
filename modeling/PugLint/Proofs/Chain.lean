import PugLint.Proofs.Element.Consistency
import PugLint.Proofs.Tracker

/-!
# Chains of siblings

Chains of `v-if`, `v-else-if` and `v-else` are kept by the depth of their elements, and
nothing else tells which elements belong together. Here it is shown that this is right:
as elements are met in the order of their numbers, the chain at the depth of an element
is the one that its previous sibling has left.

* `Element.chainAfter`: what the directives of an element make of the chain in front of it;
* `ElementTree.chainBefore`, `ElementTree.chainAfter`: the chains in front of an element
  and behind it, told by its siblings;
* `ElementTree.Consistent.previous_of_isAround`: the previous sibling is found at the same
  depth around the element in front;
* `Trackers.AtElement`: the open chains when an element has been met;
* `chainsOfSiblings_build`: the open chains are those of the siblings.
-/

namespace PugLint

/-! ### Elements around an element -/

/-- An element itself, or one that it is nested in. -/
def IsAround (parents : List (Option Nat)) (a id : Nat) : Prop :=
  a = id ∨ IsAncestor parents a id

theorem IsAround.trans {parents : List (Option Nat)} {a b c : Nat} (h : IsAround parents a b)
    (h' : IsAround parents b c) : IsAround parents a c := by
  rcases h with rfl | h
  · exact h'
  · rcases h' with rfl | h'
    · exact .inr h
    · exact .inr (h.trans h')

namespace InPreorder

variable {parents : List (Option Nat)} {a b p m : Nat}

theorem le_of_isAround (h : InPreorder parents) (ha : IsAround parents a b) : a ≤ b :=
  ha.elim Nat.le_of_eq fun hanc => Nat.le_of_lt (h.ancestor_lt hanc)

/-- Of two elements around a third, the first is around the second. -/
theorem isAncestor_of_lt (h : InPreorder parents) {id : Nat} (ha : IsAround parents a id)
    (hb : IsAround parents b id) (hlt : a < b) : IsAncestor parents a b := by
  have hle := h.le_of_isAround hb
  rcases ha with rfl | ha
  · exact absurd hle (Nat.not_le.2 hlt)
  · exact h.between ha hlt hle

/-- The parent of an element is around the one in front of it. -/
theorem isAround_of_isParent (h : InPreorder parents) (hp : IsParent parents p (m + 1)) :
    IsAround parents p m := by
  rcases Nat.lt_or_eq_of_le (Nat.le_of_lt_succ (h.parent_lt hp)) with hlt | rfl
  · exact .inr (h.between (.of_isParent hp) hlt (Nat.le_succ m))
  · exact .inl rfl

end InPreorder

namespace ElementTree

variable {tree : ElementTree} {a b id m : Nat} {x y element last : Element}

namespace Consistent

/-- Elements are deeper than those around them. -/
theorem depth_lt (h : tree.Consistent) (ha : tree.nodes[a]? = some x)
    (hb : tree.nodes[b]? = some y) (hanc : IsAncestor (parentsOf tree.nodes) a b) :
    x.depth < y.depth := by
  induction hanc generalizing y with
  | single hp =>
    obtain ⟨element, helement, hparent⟩ := isParent_iff.1 hp
    cases hb.symm.trans helement
    obtain ⟨_, outer, houter, hdepth⟩ := h.child hb hparent
    cases ha.symm.trans houter
    exact hdepth ▸ Nat.lt_succ_self _
  | tail _ hp ih =>
    obtain ⟨element, helement, hparent⟩ := isParent_iff.1 hp
    cases hb.symm.trans helement
    obtain ⟨_, outer, houter, hdepth⟩ := h.child hb hparent
    exact hdepth ▸ Nat.lt_succ_of_lt (ih houter)

/-- There is one element around another at each smaller depth. -/
theorem exists_isAround (h : tree.Consistent) {depth : Nat}
    (hid : tree.nodes[id]? = some element) (hdepth : depth ≤ element.depth) :
    ∃ a outer, IsAround (parentsOf tree.nodes) a id ∧ tree.nodes[a]? = some outer ∧
      outer.depth = depth := by
  induction id using Nat.strongRecOn generalizing element with
  | ind id ih =>
    rcases Nat.lt_or_eq_of_le hdepth with hlt | rfl
    · cases hparent : element.parent with
      | none =>
        rw [h.root hid hparent] at hlt
        exact absurd hlt (Nat.not_lt_zero _)
      | some p =>
        obtain ⟨hp, outer, houter, hdepth⟩ := h.child hid hparent
        obtain ⟨a, found, ha, hfound⟩ := ih p hp houter (by omega)
        have hpid : IsParent (parentsOf tree.nodes) p id := isParent_iff.2 ⟨element, hid, hparent⟩
        exact ⟨a, found, ha.trans (.inr (.of_isParent hpid)), hfound⟩
    · exact ⟨id, element, .inl rfl, hid, rfl⟩

/-- There is only one such element. -/
theorem eq_of_isAround (h : tree.Consistent) (hpreorder : InPreorder (parentsOf tree.nodes))
    (ha : IsAround (parentsOf tree.nodes) a id) (hb : IsAround (parentsOf tree.nodes) b id)
    (hx : tree.nodes[a]? = some x) (hy : tree.nodes[b]? = some y) (hdepth : x.depth = y.depth) :
    a = b := by
  rcases Nat.lt_trichotomy a b with hlt | rfl | hlt
  · have := h.depth_lt hx hy (hpreorder.isAncestor_of_lt ha hb hlt)
    omega
  · rfl
  · have := h.depth_lt hy hx (hpreorder.isAncestor_of_lt hb ha hlt)
    omega

/-- The previous sibling of an element is found at the same depth around the element in
    front. -/
theorem previous_of_isAround (h : tree.Consistent)
    (hpreorder : InPreorder (parentsOf tree.nodes)) (hid : tree.nodes[m + 1]? = some element)
    (ha : IsAround (parentsOf tree.nodes) a m) (hx : tree.nodes[a]? = some x)
    (hdepth : x.depth = element.depth) : element.previous = some a := by
  have hparent : x.parent = element.parent := by
    cases houter : x.parent with
    | none =>
      have hroot := h.root hx houter
      cases hp : element.parent with
      | none => rfl
      | some p =>
        obtain ⟨_, _, _, hchild⟩ := h.child hid hp
        omega
    | some q =>
      obtain ⟨_, outer, hq, hchild⟩ := h.child hx houter
      cases hp : element.parent with
      | none =>
        have hroot := h.root hid hp
        omega
      | some p =>
        -- Both parents are around the element in front, and at the same depth.
        obtain ⟨_, outer', hp', hchild'⟩ := h.child hid hp
        have hparent : IsParent (parentsOf tree.nodes) p (m + 1) :=
          isParent_iff.2 ⟨element, hid, hp⟩
        have hqa : IsParent (parentsOf tree.nodes) q a := isParent_iff.2 ⟨x, hx, houter⟩
        have haround : IsAround (parentsOf tree.nodes) q m :=
          IsAround.trans (.inr (.of_isParent hqa)) ha
        have heq := h.eq_of_isAround hpreorder haround (hpreorder.isAround_of_isParent hparent)
          hq hp' (by omega)
        rw [heq]
  have hsiblings := areSiblings_of_parent_eq hx hid hparent
  have ham := hpreorder.le_of_isAround ha
  refine (h.previous hid a).2 ⟨⟨hsiblings, Nat.lt_succ_of_le ham⟩, ?_⟩
  rintro s ⟨hs, hlt⟩
  by_contra hle
  -- A sibling in between would be nested in the element found.
  have hanc : IsAncestor (parentsOf tree.nodes) a s := by
    rcases ha with rfl | ha
    · omega
    · exact hpreorder.between ha (Nat.not_le.1 hle) (Nat.le_of_lt_succ hlt)
  exact hpreorder.not_isAncestor_of_areSiblings (hsiblings.trans hs.symm) hanc

/-- An element that is deeper than the one in front has no previous sibling. -/
theorem previous_of_depth_lt (h : tree.Consistent)
    (hpreorder : InPreorder (parentsOf tree.nodes)) (hid : tree.nodes[m + 1]? = some element)
    (hlast : tree.nodes[m]? = some last) (hdepth : last.depth < element.depth) :
    element.previous = none := by
  cases hp : element.parent with
  | none =>
    rw [h.root hid hp] at hdepth
    exact absurd hdepth (Nat.not_lt_zero _)
  | some p =>
    -- The parent is the element in front, behind which the first child comes.
    obtain ⟨_, outer, houter, hchild⟩ := h.child hid hp
    have hparent : IsParent (parentsOf tree.nodes) p (m + 1) := isParent_iff.2 ⟨element, hid, hp⟩
    have hpm : p = m := by
      rcases hpreorder.isAround_of_isParent hparent with rfl | hanc
      · rfl
      · have := h.depth_lt houter hlast hanc
        omega
    cases hprevious : element.previous with
    | none => rfl
    | some s =>
      obtain ⟨⟨⟨parent, hs, hm⟩, hlt⟩, _⟩ := (h.previous hid s).1 hprevious
      cases hm.symm.trans hparent
      have := hpreorder.parent_lt hs
      omega

end Consistent

end ElementTree

/-! ### Directives of an element -/

/-- The first directive of an element with a given name: the number of its token, and its value. -/
def Element.directive? (element : Element) (tokens : Array PlacedToken) (name : String) :
    Option (Nat × Option String) :=
  element.attributes.findSome? fun i =>
    (tokens[i]?.bind PlacedToken.attribute?).bind fun (raw, value) =>
      if (Directive.parse? raw).map Directive.name = some name then some (i, value) else none

/-- The chain behind an element: a `v-if` opens one, a `v-else-if` continues the one in front, a
    `v-else` leaves it, and without any of them there is none. -/
def Element.chainAfter (element : Element) (tokens : Array PlacedToken) (before : Option Chain) :
    Option Chain :=
  match element.directive? tokens "if" with
  | some (i, value) => some ⟨i, [Conditional.conditionOf value]⟩
  | none =>
    match element.directive? tokens "else-if" with
    | some (_, value) =>
      before.map fun chain => ⟨chain.start, chain.conditions ++ [Conditional.conditionOf value]⟩
    | none => if (element.directive? tokens "else").isSome then before else none

namespace Conditional

/-- The first of some attributes that is a directive with a given name. -/
def first? (name : String) (attributes : List (Nat × String × Option String)) :
    Option (Nat × Option String) :=
  attributes.findSome? fun (i, raw, value) =>
    if (Directive.parse? raw).map Directive.name = some name then some (i, value) else none

variable {name raw : String} {attributes : List (Nat × String × Option String)} {i : Nat}
  {value : Option String} {found : Conditional}

theorem first?_cons_of_eq (h : (Directive.parse? raw).map Directive.name = some name) :
    first? name ((i, raw, value) :: attributes) = some (i, value) := by
  simp only [first?, List.findSome?_cons, if_pos h]

theorem first?_cons_of_ne (h : (Directive.parse? raw).map Directive.name ≠ some name) :
    first? name ((i, raw, value) :: attributes) = first? name attributes := by
  simp only [first?, List.findSome?_cons, if_neg h]

-- The attributes are gone through in their order, with the part found in front of them.

/-- A `v-if` goes before everything else. -/
theorem ofAttributesFrom_of_if (h : first? "if" attributes = some (i, value)) :
    ofAttributesFrom found attributes = .opens i (conditionOf value) := by
  fun_induction ofAttributesFrom found attributes with
  | case1 => cases h
  | case2 _ _ _ _ _ hname =>
    rw [first?_cons_of_eq hname] at h
    cases h
    rfl
  | case3 _ _ _ _ _ hname ih | case4 _ _ _ _ _ hname _ ih | case5 _ _ _ _ hname ih =>
    exact ih (by rwa [first?_cons_of_ne (by simp [hname])] at h)
  | case6 _ _ _ _ _ hif _ _ _ ih => exact ih (by rwa [first?_cons_of_ne hif] at h)

/-- Without a `v-if`, what has been found stays if it is a `v-else-if`. -/
theorem ofAttributesFrom_of_continues {condition : String} (hif : first? "if" attributes = none)
    (hfound : found = .continues condition) :
    ofAttributesFrom found attributes = .continues condition := by
  fun_induction ofAttributesFrom found attributes with
  | case1 => exact hfound
  | case2 _ _ _ _ _ hname =>
    rw [first?_cons_of_eq hname] at hif
    cases hif
  | case3 _ _ _ _ _ hname ih =>
    exact ih (by rwa [first?_cons_of_ne (by simp [hname])] at hif) hfound
  | case4 _ _ _ _ _ _ hne => exact absurd hfound (hne _)
  | case5 => cases hfound
  | case6 _ _ _ _ _ hne _ _ _ ih => exact ih (by rwa [first?_cons_of_ne hne] at hif) hfound

/-- Without a `v-if`, the first `v-else-if` goes before a `v-else`. -/
theorem ofAttributesFrom_of_elseIf (hif : first? "if" attributes = none)
    (helseIf : first? "else-if" attributes = some (i, value))
    (hfound : ∀ condition, found ≠ .continues condition) :
    ofAttributesFrom found attributes = .continues (conditionOf value) := by
  fun_induction ofAttributesFrom found attributes with
  | case1 => cases helseIf
  | case2 _ _ _ _ _ hname =>
    rw [first?_cons_of_eq hname] at hif
    cases hif
  | case3 => exact absurd rfl (hfound _)
  | case4 _ _ _ _ _ hname =>
    rw [first?_cons_of_ne (by simp [hname])] at hif
    rw [first?_cons_of_eq hname] at helseIf
    cases helseIf
    exact ofAttributesFrom_of_continues hif rfl
  | case5 _ _ _ _ hname ih =>
    rw [first?_cons_of_ne (by simp [hname])] at hif helseIf
    exact ih hif helseIf (by simp)
  | case6 _ _ _ _ _ hne hne' _ _ ih =>
    rw [first?_cons_of_ne hne] at hif
    rw [first?_cons_of_ne hne'] at helseIf
    exact ih hif helseIf hfound

/-- Without both, a `v-else` counts if nothing has been found. -/
theorem ofAttributesFrom_of_else (hif : first? "if" attributes = none)
    (helseIf : first? "else-if" attributes = none) :
    ofAttributesFrom found attributes =
      if (first? "else" attributes).isSome ∧ found = .plain then .concludes else found := by
  fun_induction ofAttributesFrom found attributes with
  | case1 => simp [first?]
  | case2 _ _ _ _ _ hname =>
    rw [first?_cons_of_eq hname] at hif
    cases hif
  | case3 _ _ _ _ _ hname | case4 _ _ _ _ _ hname =>
    rw [first?_cons_of_eq hname] at helseIf
    cases helseIf
  | case5 _ _ _ _ hname ih =>
    rw [first?_cons_of_ne (by simp [hname])] at hif helseIf
    rw [ih hif helseIf, first?_cons_of_eq hname]
    simp
  | case6 found _ raw _ _ hne hne' _ hplain ih =>
    rw [first?_cons_of_ne hne] at hif
    rw [first?_cons_of_ne hne'] at helseIf
    rw [ih hif helseIf]
    by_cases hname : (Directive.parse? raw).map Directive.name = some "else"
    · simp only [show found ≠ .plain from hplain hname, and_false]
    · rw [first?_cons_of_ne hname]

end Conditional

theorem Element.directive?_eq (element : Element) (tokens : Array PlacedToken) (name : String) :
    element.directive? tokens name =
      Conditional.first? name (element.attributes.filterMap fun i =>
        (tokens[i]?.bind PlacedToken.attribute?).map fun (raw, value) => (i, raw, value)) := by
  rw [directive?, Conditional.first?, ← List.head?_filterMap, ← List.head?_filterMap,
    List.filterMap_filterMap]
  congr 2
  funext i
  cases tokens[i]?.bind PlacedToken.attribute? <;> rfl

/-- The part of an element in a chain is the one that its directives give it. -/
theorem Element.after_ofTokens (element : Element) (tokens : Array PlacedToken)
    (before : Option Chain) :
    (Conditional.ofTokens tokens element.attributes).after before =
      element.chainAfter tokens before := by
  rw [Conditional.ofTokens, chainAfter, directive?_eq, directive?_eq, directive?_eq]
  split
  · rename_i hif
    rw [Conditional.ofAttributesFrom_of_if hif]
    rfl
  · rename_i hif
    split
    · rename_i helseIf
      rw [Conditional.ofAttributesFrom_of_elseIf hif helseIf (by simp)]
      rfl
    · rename_i helseIf
      rw [Conditional.ofAttributesFrom_of_else hif helseIf]
      simp only [and_true]
      split <;> rfl

/-! ### Chains by siblings -/

/-- The chain behind an element: what its directives make of the chain behind its
    previous sibling, which is in front of it. -/
def ElementTree.chainAfter (tree : ElementTree) (tokens : Array PlacedToken) (id : Nat) :
    Option Chain :=
  match tree.nodes[id]? with
  | none => none
  | some element =>
    element.chainAfter tokens <|
      match element.previous with
      | none => none
      | some p => if p < id then tree.chainAfter tokens p else none
termination_by id

/-- The chain in front of an element: the one behind its previous sibling. -/
def ElementTree.chainBefore (tree : ElementTree) (tokens : Array PlacedToken) (id : Nat) :
    Option Chain :=
  (tree.nodes[id]?.bind Element.previous).bind (tree.chainAfter tokens)

section Chains

variable {tokens : Array PlacedToken} {tree : ElementTree} {id : Nat} {element : Element}

theorem ElementTree.chainBefore_eq (hid : tree.nodes[id]? = some element) :
    tree.chainBefore tokens id = element.previous.bind (tree.chainAfter tokens) := by
  rw [chainBefore, hid, Option.bind_some]

theorem ElementTree.chainAfter_eq (h : tree.Consistent) (hid : tree.nodes[id]? = some element) :
    tree.chainAfter tokens id = element.chainAfter tokens (tree.chainBefore tokens id) := by
  rw [chainBefore_eq hid, chainAfter, hid]
  dsimp only
  cases hprevious : element.previous with
  | none => rfl
  | some p =>
    have hlt : p < id := ((h.previous hid p).1 hprevious).1.2
    dsimp only
    rw [if_pos hlt, Option.bind_some]

/-- An element replaces the chain at its own depth and ends those at greater depths. -/
theorem entry?_enter (chains : Chains) (depth : Nat) (conditional : Conditional) (d : Nat) :
    Chains.entry? (chains.enter depth conditional) d =
      if d < depth then chains.entry? d
      else if d = depth then conditional.after (chains.entry? depth) else none := by
  have hlength : (chains.entries.take depth ++
      List.replicate (depth - (chains.entries.take depth).length) none).length = depth := by
    rw [List.length_append, List.length_replicate, List.length_take]
    omega
  rw [Chains.enter, Chains.entry?]
  dsimp only
  rcases Nat.lt_trichotomy d depth with hlt | rfl | hlt
  · rw [if_pos hlt, List.getElem?_append_left (by omega), Chains.entry?]
    rcases Nat.lt_or_ge d chains.entries.length with hd | hd
    · rw [List.getElem?_append_left (by rw [List.length_take]; omega),
        List.getElem?_take_of_lt hlt]
    · -- Where there was no entry, there is an empty one.
      rw [List.getElem?_append_right (by rw [List.length_take]; omega),
        List.getElem?_replicate, List.getElem?_eq_none hd, if_pos (by rw [List.length_take]; omega)]
      rfl
  · rw [if_neg (Nat.lt_irrefl _), if_pos rfl, List.getElem?_append_right (by omega), hlength,
      Nat.sub_self]
    rfl
  · rw [if_neg (Nat.lt_asymm hlt), if_neg (Nat.ne_of_gt hlt), List.getElem?_eq_none]
    · rfl
    · rw [List.length_append, hlength]
      exact hlt

end Chains

/-! ### Going through the elements -/

namespace Trackers

/-- The open chains when an element is the last one that has been met: the chains behind
    it and behind the elements around it, each at its depth, and no others. -/
structure AtElement (tokens : Array PlacedToken) (tree : ElementTree) (trackers : Trackers)
    (id : Nat) (element : Element) : Prop where
  /-- The chain in front of the element. -/
  before : trackers.chainBefore = tree.chainBefore tokens id
  /-- The chains behind the element and those around it. -/
  entry {a : Nat} {outer : Element} (ha : IsAround (parentsOf tree.nodes) a id)
    (houter : tree.nodes[a]? = some outer) :
    trackers.chains.entry? outer.depth = tree.chainAfter tokens a
  /-- No chain is deeper. -/
  deeper {depth : Nat} (h : element.depth < depth) : trackers.chains.entry? depth = none

variable {tokens : Array PlacedToken} {tree : ElementTree} {trackers : Trackers} {id m : Nat}
  {element last : Element}

/-- The chains of a new element, if the one in front of it is found at its depth. -/
theorem atElement_of_entry (h : tree.Consistent) (hid : tree.nodes[id]? = some element)
    (hbefore : trackers.chains.entry? element.depth = tree.chainBefore tokens id)
    (hentry : ∀ {a : Nat} {outer : Element}, IsAncestor (parentsOf tree.nodes) a id →
      tree.nodes[a]? = some outer →
      trackers.chains.entry? outer.depth = tree.chainAfter tokens a) :
    (trackers.afterElement id element
      (Conditional.ofTokens tokens element.attributes)).AtElement tokens tree id element where
  before := hbefore
  entry {a outer} ha houter := by
    rw [afterElement, entry?_enter]
    rcases ha with rfl | ha
    · cases hid.symm.trans houter
      rw [if_neg (Nat.lt_irrefl _), if_pos rfl, hbefore, Element.after_ofTokens,
        ElementTree.chainAfter_eq h hid]
    · rw [if_pos (h.depth_lt houter hid ha)]
      exact hentry ha houter
  deeper hdepth := by
    rw [afterElement, entry?_enter, if_neg (Nat.lt_asymm hdepth), if_neg (Nat.ne_of_gt hdepth)]

/-- The first element. -/
theorem atElement_zero (h : tree.Consistent) (hpreorder : InPreorder (parentsOf tree.nodes))
    (hid : tree.nodes[0]? = some element) (hempty : trackers.chains = .empty) :
    (trackers.afterElement 0 element
      (Conditional.ofTokens tokens element.attributes)).AtElement tokens tree 0 element := by
  have hnone (depth : Nat) : trackers.chains.entry? depth = none := by
    rw [hempty]
    rfl
  refine atElement_of_entry h hid ?_ fun ha => absurd (hpreorder.ancestor_lt ha) (Nat.not_lt_zero _)
  rw [hnone, ElementTree.chainBefore_eq hid]
  cases hprevious : element.previous with
  | none => rfl
  | some s => exact absurd ((h.previous hid s).1 hprevious).1.2 (Nat.not_lt_zero _)

/-- A further element. -/
theorem AtElement.succ (htrackers : trackers.AtElement tokens tree m last) (h : tree.Consistent)
    (hpreorder : InPreorder (parentsOf tree.nodes)) (hlast : tree.nodes[m]? = some last)
    (hid : tree.nodes[m + 1]? = some element) :
    (trackers.afterElement (m + 1) element
      (Conditional.ofTokens tokens element.attributes)).AtElement tokens tree (m + 1) element := by
  refine atElement_of_entry h hid ?_ fun {a outer} ha houter => ?_
  · rw [ElementTree.chainBefore_eq hid]
    rcases Nat.lt_or_ge last.depth element.depth with hlt | hle
    · rw [htrackers.deeper hlt, h.previous_of_depth_lt hpreorder hid hlast hlt, Option.bind_none]
    · obtain ⟨a, outer, ha, houter, hdepth⟩ := h.exists_isAround hlast hle
      rw [← hdepth, htrackers.entry ha houter,
        h.previous_of_isAround hpreorder hid ha houter hdepth, Option.bind_some]
  · -- What is around the new element is around the one in front.
    obtain ⟨p, hp, hap⟩ := isAncestor_iff.1 ha
    have haround : IsAround (parentsOf tree.nodes) a p := hap
    exact htrackers.entry (haround.trans (hpreorder.isAround_of_isParent hp)) houter

theorem AtElement.congr {others : Trackers} (h : trackers.AtElement tokens tree id element)
    (hchains : others.chains = trackers.chains)
    (hbefore : others.chainBefore = trackers.chainBefore) :
    others.AtElement tokens tree id element where
  before := hbefore.trans h.before
  entry ha houter := hchains ▸ h.entry ha houter
  deeper hdepth := hchains ▸ h.deeper hdepth

/-- Elements apart, tokens change no chains. -/
theorem chains_afterToken (trackers : Trackers) (i : Nat) (kind : TokenKind) :
    (trackers.afterToken i kind).chains = trackers.chains ∧
      (trackers.afterToken i kind).chainBefore = trackers.chainBefore := by
  unfold afterToken
  split
  case h_4 => split <;> exact ⟨rfl, rfl⟩
  all_goals exact ⟨rfl, rfl⟩

/-- What is known when `k` elements have been met, those that start in front of the token
    with number `n`. -/
structure Met (tokens : Array PlacedToken) (tree : ElementTree) (trackers : Trackers)
    (n k : Nat) : Prop where
  /-- There are that many elements. -/
  le_size : k ≤ tree.nodes.size
  /-- The elements that have been met. -/
  token_lt_iff {id : Nat} {element : Element} (h : tree.nodes[id]? = some element) :
    element.token < n ↔ id < k
  /-- In front of all elements, there are no chains. -/
  empty (h : k = 0) : trackers.chains = .empty ∧ trackers.chainBefore = none
  /-- The chains at the last element that has been met. -/
  atElement {m : Nat} {last : Element} (h : k = m + 1) (hlast : tree.nodes[m]? = some last) :
    trackers.AtElement tokens tree m last

/-- The chains after a token that starts no element. -/
theorem Met.stay {n k : Nat} (hmet : Met tokens tree trackers n k) (h : tree.Consistent)
    (hnone : tree.elementAt? n = none) :
    Met tokens tree (trackers.update tokens tree n) (n + 1) k := by
  obtain ⟨hchains, hbefore⟩ : (trackers.update tokens tree n).chains = trackers.chains ∧
      (trackers.update tokens tree n).chainBefore = trackers.chainBefore := by
    rw [update, hnone]
    exact chains_afterToken ..
  refine ⟨hmet.le_size, fun {id element} hid => ?_, fun hk => ?_, fun hk hlast => ?_⟩
  · have hne : element.token ≠ n := by
      intro htoken
      rw [h.elementAt?.2 ⟨element, hid, htoken⟩] at hnone
      cases hnone
    rw [← hmet.token_lt_iff hid]
    omega
  · rw [hchains, hbefore]
    exact hmet.empty hk
  · exact (hmet.atElement hk hlast).congr hchains hbefore

/-- The chains after a token that starts an element. -/
theorem Met.meet {n k : Nat} (hmet : Met tokens tree trackers n k) (h : tree.Consistent)
    (hpreorder : InPreorder (parentsOf tree.nodes)) (hsome : tree.elementAt? n = some id) :
    Met tokens tree (trackers.update tokens tree n) (n + 1) (id + 1) := by
  obtain ⟨element, hid, htoken⟩ := h.elementAt?.1 hsome
  have hsize := (Array.getElem?_eq_some_iff.1 hid).1
  -- All elements in front have been met, and this one has not.
  obtain rfl : k = id := by
    have hge : ¬ id < k := by
      rw [← hmet.token_lt_iff hid]
      omega
    by_contra hne
    have hlt : k < id := by omega
    have hfront := Array.getElem?_eq_getElem (Nat.lt_trans hlt hsize)
    have := h.increasing hfront hid hlt
    have := (hmet.token_lt_iff hfront).1 (by omega)
    omega
  obtain ⟨kind, hupdate⟩ : ∃ kind, trackers.update tokens tree n =
      (trackers.afterToken n kind).afterElement k element
        (Conditional.ofTokens tokens element.attributes) := by
    rw [update, hsome]
    dsimp only
    rw [hid]
    exact ⟨_, rfl⟩
  obtain ⟨hchains, hbefore⟩ := trackers.chains_afterToken n kind
  refine ⟨hsize, fun {j other} hj => ?_, nofun, fun {m last} hk hlast => ?_⟩
  · rcases Nat.lt_trichotomy j k with hlt | rfl | hlt
    · have := h.increasing hj hid hlt
      omega
    · cases hid.symm.trans hj
      omega
    · have := h.increasing hid hj hlt
      omega
  · obtain rfl : k = m := Nat.succ.inj hk
    cases hid.symm.trans hlast
    rw [hupdate]
    cases k with
    | zero => exact atElement_zero h hpreorder hid (hchains.trans (hmet.empty rfl).1)
    | succ m =>
      have hfront := Array.getElem?_eq_getElem (Nat.lt_of_succ_lt hsize)
      have hat := (hmet.atElement rfl hfront).congr hchains hbefore
      exact hat.succ h hpreorder hfront hid

/-- What is known behind any number of tokens. -/
theorem exists_met (tokens : Array PlacedToken) (h : tree.Consistent)
    (hpreorder : InPreorder (parentsOf tree.nodes)) (n : Nat) :
    ∃ k, Met tokens tree (behind tokens tree n) n k := by
  induction n with
  | zero =>
    refine ⟨0, Nat.zero_le _, fun _ => ?_, fun _ => ⟨rfl, rfl⟩, nofun⟩
    exact iff_of_false (Nat.not_lt_zero _) (Nat.not_lt_zero _)
  | succ n ih =>
    obtain ⟨k, hmet⟩ := ih
    cases hat : tree.elementAt? n with
    | none => exact ⟨k, hmet.stay h hat⟩
    | some id => exact ⟨id + 1, hmet.meet h hpreorder hat⟩

end Trackers

/-! ### The open chains -/

/-- The last of the elements that start in front of the token with number `n`. -/
def ElementTree.LastMet (tree : ElementTree) (n id : Nat) : Prop :=
  IsGreatest {id | ∃ element, tree.nodes[id]? = some element ∧ element.token < n} id

/-- The chains that are open where tokens are gone through are those of the siblings. -/
structure ChainsOfSiblings (tokens : Array PlacedToken) (tree : ElementTree) : Prop where
  /-- In front of an element is the chain behind its previous sibling. -/
  before {id : Nat} {element : Element} (h : tree.nodes[id]? = some element) :
    tree.chainBefore tokens id = element.previous.bind (tree.chainAfter tokens)
  /-- A `v-if` opens a chain with its condition. -/
  opened {id i : Nat} {element : Element} {value : Option String}
    (h : tree.nodes[id]? = some element) (hif : element.directive? tokens "if" = some (i, value)) :
    tree.chainAfter tokens id = some ⟨i, [Conditional.conditionOf value]⟩
  /-- A `v-else-if` adds its condition to the chain in front, if there is one. -/
  continued {id i : Nat} {element : Element} {value : Option String}
    (h : tree.nodes[id]? = some element) (hif : element.directive? tokens "if" = none)
    (helseIf : element.directive? tokens "else-if" = some (i, value)) :
    tree.chainAfter tokens id = (tree.chainBefore tokens id).map fun chain =>
      ⟨chain.start, chain.conditions ++ [Conditional.conditionOf value]⟩
  /-- A `v-else` leaves the chain in front as it is. -/
  kept {id i : Nat} {element : Element} {value : Option String}
    (h : tree.nodes[id]? = some element) (hif : element.directive? tokens "if" = none)
    (helseIf : element.directive? tokens "else-if" = none)
    (helse : element.directive? tokens "else" = some (i, value)) :
    tree.chainAfter tokens id = tree.chainBefore tokens id
  /-- An element with none of them ends the chain in front. -/
  ended {id : Nat} {element : Element} (h : tree.nodes[id]? = some element)
    (hif : element.directive? tokens "if" = none)
    (helseIf : element.directive? tokens "else-if" = none)
    (helse : element.directive? tokens "else" = none) :
    tree.chainAfter tokens id = none
  /-- The chains that are seen at the first token of an element and at its attributes. -/
  seen {id i : Nat} {element : Element} (h : tree.nodes[id]? = some element)
    (hi : i = element.token ∨ i ∈ element.attributes) :
    (Trackers.behind tokens tree (i + 1)).chainBefore = tree.chainBefore tokens id ∧
      Chains.entry? (Trackers.behind tokens tree (i + 1)).chains element.depth =
        tree.chainAfter tokens id
  /-- A chain in front that is ever seen is the one in front of the last element. -/
  seen_before {n : Nat} {chain : Chain}
    (h : (Trackers.behind tokens tree n).chainBefore = some chain) :
    ∃ id, tree.LastMet n id ∧ tree.chainBefore tokens id = some chain
  /-- A chain that is ever open at a depth is the one behind the last element or one
      around it, and that element has this depth. -/
  seen_entry {n depth : Nat} {chain : Chain}
    (h : Chains.entry? (Trackers.behind tokens tree n).chains depth = some chain) :
    ∃ id a outer, tree.LastMet n id ∧ IsAround (parentsOf tree.nodes) a id ∧
      tree.nodes[a]? = some outer ∧ outer.depth = depth ∧ tree.chainAfter tokens a = some chain

namespace Trackers.Met

variable {tokens : Array PlacedToken} {tree : ElementTree} {trackers : Trackers} {n k : Nat}

/-- The last element that has been met. -/
theorem lastMet {m : Nat} (hmet : Met tokens tree trackers n (m + 1)) : tree.LastMet n m := by
  have hlast := Array.getElem?_eq_getElem hmet.le_size
  refine ⟨⟨_, hlast, (hmet.token_lt_iff hlast).2 (Nat.lt_succ_self m)⟩, ?_⟩
  rintro id ⟨element, hid, htoken⟩
  exact Nat.le_of_lt_succ ((hmet.token_lt_iff hid).1 htoken)

/-- An element is the last one up to the tokens in front of the next element. -/
theorem eq_succ {id i : Nat} {element : Element} (hmet : Met tokens tree trackers (i + 1) k)
    (hid : tree.nodes[id]? = some element) (htoken : element.token ≤ i)
    (hnext : ∀ other behind, tree.nodes[other]? = some behind → id < other → i < behind.token) :
    k = id + 1 := by
  have hlt := (hmet.token_lt_iff hid).1 (Nat.lt_succ_of_le htoken)
  by_contra hne
  have hnextlt : id + 1 < k := by omega
  have hbehind := Array.getElem?_eq_getElem (Nat.lt_of_lt_of_le hnextlt hmet.le_size)
  have := hnext _ _ hbehind (Nat.lt_succ_self id)
  have := (hmet.token_lt_iff hbehind).2 hnextlt
  omega

/-- The chain in front that is seen is the one in front of the last element. -/
theorem exists_of_chainBefore {chain : Chain} (hmet : Met tokens tree trackers n k)
    (hchain : trackers.chainBefore = some chain) :
    ∃ id, tree.LastMet n id ∧ tree.chainBefore tokens id = some chain := by
  cases k with
  | zero =>
    rw [(hmet.empty rfl).2] at hchain
    cases hchain
  | succ m =>
    have hat := hmet.atElement rfl (Array.getElem?_eq_getElem hmet.le_size)
    exact ⟨m, hmet.lastMet, hat.before ▸ hchain⟩

/-- The chains that are open are those behind the last element and those around it. -/
theorem exists_of_entry {depth : Nat} {chain : Chain} (hmet : Met tokens tree trackers n k)
    (h : tree.Consistent) (hchain : trackers.chains.entry? depth = some chain) :
    ∃ id a outer, tree.LastMet n id ∧ IsAround (parentsOf tree.nodes) a id ∧
      tree.nodes[a]? = some outer ∧ outer.depth = depth ∧
      tree.chainAfter tokens a = some chain := by
  cases k with
  | zero =>
    rw [(hmet.empty rfl).1] at hchain
    cases hchain
  | succ m =>
    obtain ⟨last, hlast⟩ : ∃ last, tree.nodes[m]? = some last :=
      ⟨_, Array.getElem?_eq_getElem hmet.le_size⟩
    have hat := hmet.atElement rfl hlast
    have hdepth : depth ≤ last.depth := by
      by_contra hlt
      rw [hat.deeper (Nat.not_le.1 hlt)] at hchain
      cases hchain
    obtain ⟨a, outer, ha, houter, rfl⟩ := h.exists_isAround hlast hdepth
    exact ⟨m, a, outer, hmet.lastMet, ha, houter, rfl, (hat.entry ha houter).symm.trans hchain⟩

end Trackers.Met

/-- Whatever the tokens, the open chains are those of the siblings. -/
theorem chainsOfSiblings_build (tokens : List PlacedToken) :
    ChainsOfSiblings tokens.toArray (ElementTree.build tokens) := by
  have hordered := ElementTree.ordered_run (tokens.map PlacedToken.kind)
  have hpreorder : InPreorder (parentsOf (ElementTree.build tokens).nodes) := hordered.preorder
  have h : (ElementTree.build tokens).Consistent := ElementTree.consistent_ofKinds _
  refine
    { before := ElementTree.chainBefore_eq
      opened := fun hid hif => ?_
      continued := fun hid hif helseIf => ?_
      kept := fun hid hif helseIf helse => ?_
      ended := fun hid hif helseIf helse => ?_
      seen := fun {id i element} hid hi => ?_
      seen_before := fun {n chain} hchain => ?_
      seen_entry := fun {n depth chain} hchain => ?_ }
  · rw [ElementTree.chainAfter_eq h hid, Element.chainAfter, hif]
  · rw [ElementTree.chainAfter_eq h hid, Element.chainAfter, hif, helseIf]
  · rw [ElementTree.chainAfter_eq h hid, Element.chainAfter, hif, helseIf, helse]
    rfl
  · rw [ElementTree.chainAfter_eq h hid, Element.chainAfter, hif, helseIf, helse]
    rfl
  · -- The element is the last one that has been met, also at its attributes.
    obtain ⟨k, hmet⟩ := Trackers.exists_met tokens.toArray h hpreorder (i + 1)
    obtain rfl : k = id + 1 := by
      rcases hi with rfl | hi
      · exact hmet.eq_succ hid (Nat.le_refl _) fun other behind hother =>
          h.increasing hid hother
      · obtain ⟨htoken, _, hnext⟩ := hordered.attributes hid i hi
        exact hmet.eq_succ hid (Nat.le_of_lt htoken) hnext
    have hat := hmet.atElement rfl hid
    exact ⟨hat.before, hat.entry (.inl rfl) hid⟩
  · obtain ⟨k, hmet⟩ := Trackers.exists_met tokens.toArray h hpreorder n
    exact hmet.exists_of_chainBefore hchain
  · obtain ⟨k, hmet⟩ := Trackers.exists_met tokens.toArray h hpreorder n
    exact hmet.exists_of_entry h hchain

/-- A `v-if` around another element, a `v-else-if`, a `v-else` and none of them. -/
def branches : String :=
  "a(v-if='x')\n  b\nc(v-else-if=' y ')\nd(v-else)\ne"

/-- The tokens of these elements. -/
def branchTokens : List PlacedToken :=
  match tokenize branches with
  | .ok tokens => placeTokens tokens branches.toList 0 1
  | .error _ => []

/-- The elements. -/
def branchElements : List Element :=
  [⟨"a", .tag, 0, some 0, [2], none, some 1, some 1, none, some 2, 0, 6⟩,
    ⟨"b", .tag, 5, some 5, [], some 0, none, none, none, none, 1, 6⟩,
    ⟨"c", .tag, 7, some 7, [9], none, none, none, some 0, some 3, 0, 11⟩,
    ⟨"d", .tag, 12, some 12, [14], none, none, none, some 2, some 4, 0, 16⟩,
    ⟨"e", .tag, 17, some 17, [], none, none, none, some 3, none, 0, 18⟩]

/-- The chains that are seen at these elements. -/
theorem chainsOfSiblings_build_branches :
    let tokens := branchTokens.toArray
    let tree := ElementTree.build branchTokens
    let directives (element : Element) :=
      ["if", "else-if", "else"].map (element.directive? tokens)
    let seen (element : Element) :=
      let trackers := Trackers.behind tokens tree (element.token + 1)
      (trackers.chainBefore, trackers.chains.entry? element.depth)
    tree.nodes = branchElements.toArray ∧
      branchElements.map directives =
        [[some (2, some "'x'"), none, none], [none, none, none],
          [none, some (9, some "' y '"), none], [none, none, some (14, none)],
          [none, none, none]] ∧
      branchElements.map seen =
        [(none, some ⟨2, ["x"]⟩), (none, none), (some ⟨2, ["x"]⟩, some ⟨2, ["x", "y"]⟩),
          (some ⟨2, ["x", "y"]⟩, some ⟨2, ["x", "y"]⟩), (some ⟨2, ["x", "y"]⟩, none)] := by
  intro tokens tree directives seen
  have h := chainsOfSiblings_build branchTokens
  have hnodes : tree.nodes = branchElements.toArray := by decide +kernel
  have hdirectives : branchElements.map directives =
      [[some (2, some "'x'"), none, none], [none, none, none],
        [none, some (9, some "' y '"), none], [none, none, some (14, none)],
        [none, none, none]] := by
    decide +kernel
  refine ⟨hnodes, hdirectives, ?_⟩
  simp only [directives, branchElements, List.map_cons, List.map_nil, List.cons.injEq,
    and_true] at hdirectives
  obtain ⟨⟨haIf, -, -⟩, ⟨hbIf, hbElseIf, hbElse⟩, ⟨hcIf, hcElseIf, -⟩, ⟨hdIf, hdElseIf, hdElse⟩,
    heIf, heElseIf, heElse⟩ := hdirectives
  have hnode {id : Nat} {element : Element} (hid : branchElements[id]? = some element) :
      tree.nodes[id]? = some element := by
    rw [hnodes, List.getElem?_toArray, hid]
  have ha := hnode (show branchElements[0]? = some _ from rfl)
  have hb := hnode (show branchElements[1]? = some _ from rfl)
  have hc := hnode (show branchElements[2]? = some _ from rfl)
  have hd := hnode (show branchElements[3]? = some _ from rfl)
  have he := hnode (show branchElements[4]? = some _ from rfl)
  have hx : Conditional.conditionOf (some "'x'") = "x" := by decide +kernel
  have hy : Conditional.conditionOf (some "' y '") = "y" := by decide +kernel
  have haAfter : tree.chainAfter tokens 0 = some ⟨2, ["x"]⟩ := by
    rw [h.opened ha haIf, hx]
  have hcBefore : tree.chainBefore tokens 2 = some ⟨2, ["x"]⟩ := by
    rw [h.before hc, Option.bind_some, haAfter]
  have hcAfter : tree.chainAfter tokens 2 = some ⟨2, ["x", "y"]⟩ := by
    rw [h.continued hc hcIf hcElseIf, hcBefore, hy]
    rfl
  have hdBefore : tree.chainBefore tokens 3 = some ⟨2, ["x", "y"]⟩ := by
    rw [h.before hd, Option.bind_some, hcAfter]
  have hdAfter : tree.chainAfter tokens 3 = some ⟨2, ["x", "y"]⟩ := by
    rw [h.kept hd hdIf hdElseIf hdElse, hdBefore]
  have heBefore : tree.chainBefore tokens 4 = some ⟨2, ["x", "y"]⟩ := by
    rw [h.before he, Option.bind_some, hdAfter]
  have hseen {id : Nat} {element : Element} (hid : tree.nodes[id]? = some element) :
      seen element = (tree.chainBefore tokens id, tree.chainAfter tokens id) := by
    obtain ⟨hbefore, hafter⟩ := h.seen hid (.inl rfl)
    simp only [seen, tokens, tree, hbefore, hafter]
  simp only [branchElements, List.map_cons, List.map_nil]
  rw [hseen ha, hseen hb, hseen hc, hseen hd, hseen he, h.before ha, h.before hb, haAfter,
    h.ended hb hbIf hbElseIf hbElse, hcBefore, hcAfter, hdBefore, hdAfter, heBefore,
    h.ended he heIf heElseIf heElse]
  rfl

end PugLint
