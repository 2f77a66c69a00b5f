import Mathlib.Order.Bounds.Basic
import PugLint.Proofs.Element.Order

/-!
# Consistency of elements

The links of the elements of any list of tokens agree with each other, and so do the
searches and walks that go by them, whichever tokens follow each other.

* `ElementTree.Consistent`: what the links, the search for the element of a token and
  the walks along the links say of each other;
* `ElementTree.elementAt?_eq_some_iff`: elements are found by their first tokens;
* `ElementTree.consistent_build`: the elements of any list of tokens are consistent.
-/

namespace PugLint

/-- Two elements have the same parent, or none of them has one. -/
def AreSiblings (parents : List (Option Nat)) (a b : Nat) : Prop :=
  ∃ parent, parents[a]? = some parent ∧ parents[b]? = some parent

theorem AreSiblings.symm {parents : List (Option Nat)} {a b : Nat} (h : AreSiblings parents a b) :
    AreSiblings parents b a :=
  h.imp fun _ => And.symm

theorem AreSiblings.trans {parents : List (Option Nat)} {a b c : Nat}
    (h : AreSiblings parents a b) (h' : AreSiblings parents b c) : AreSiblings parents a c := by
  obtain ⟨parent, ha, hb⟩ := h
  obtain ⟨parent', hb', hc⟩ := h'
  cases hb.symm.trans hb'
  exact ⟨parent, ha, hc⟩

/-- Siblings are not nested in each other. -/
theorem InPreorder.not_isAncestor_of_areSiblings {parents : List (Option Nat)}
    (h : InPreorder parents) {a b : Nat} (hsiblings : AreSiblings parents a b) :
    ¬ IsAncestor parents a b := by
  intro hanc
  obtain ⟨parent, ha, hb⟩ := hsiblings
  -- Their parent would be the first of them, or nested in it.
  obtain ⟨p, hp, hap⟩ := isAncestor_iff.1 hanc
  cases hb.symm.trans hp
  have hpa : p < a := h.parent_lt ha
  rcases hap with rfl | hap
  · exact Nat.lt_irrefl _ hpa
  · exact Nat.lt_asymm hpa (h.ancestor_lt hap)

/-! ### Ends of ordered lists -/

theorem head?_eq_some_iff_isLeast {xs : List Nat} (h : xs.Pairwise (· < ·)) {x : Nat} :
    xs.head? = some x ↔ IsLeast {y | y ∈ xs} x := by
  cases xs with
  | nil => simp [IsLeast]
  | cons y ys =>
    obtain ⟨hy, _⟩ := List.pairwise_cons.1 h
    have hleast : IsLeast {z | z ∈ y :: ys} y := by
      refine ⟨List.mem_cons_self, fun z hz => ?_⟩
      rcases List.mem_cons.1 hz with rfl | hz
      · exact Nat.le_refl _
      · exact Nat.le_of_lt (hy z hz)
    rw [List.head?_cons, Option.some_inj]
    exact ⟨fun heq => heq ▸ hleast, fun hx => hleast.unique hx⟩

theorem getLast?_eq_some_iff_isGreatest {xs : List Nat} (h : xs.Pairwise (· < ·)) {x : Nat} :
    xs.getLast? = some x ↔ IsGreatest {y | y ∈ xs} x := by
  rcases List.eq_nil_or_concat xs with rfl | ⟨ys, y, rfl⟩
  · simp [IsGreatest]
  · rw [List.concat_eq_append] at h ⊢
    obtain ⟨_, _, hy⟩ := List.pairwise_append.1 h
    have hgreatest : IsGreatest {z | z ∈ ys ++ [y]} y := by
      refine ⟨List.mem_append_right _ List.mem_cons_self, fun z hz => ?_⟩
      rcases List.mem_append.1 hz with hz | hz
      · exact Nat.le_of_lt (hy z hz y List.mem_cons_self)
      · exact Nat.le_of_eq (List.mem_singleton.1 hz)
    rw [List.getLast?_concat, Option.some_inj]
    exact ⟨fun heq => heq ▸ hgreatest, fun hx => hgreatest.unique hx⟩

/-- In an ordered list, the members in front of one are the smaller ones, and those
    behind it the greater ones. -/
theorem mem_of_pairwise_split {xs before after : List Nat} {x : Nat} (h : xs.Pairwise (· < ·))
    (hsplit : xs = before ++ x :: after) (y : Nat) :
    (y ∈ before ↔ y ∈ xs ∧ y < x) ∧ (y ∈ after ↔ y ∈ xs ∧ x < y) := by
  rw [hsplit] at h ⊢
  obtain ⟨_, hafter, hbefore⟩ := List.pairwise_append.1 h
  have hx := (List.pairwise_cons.1 hafter).1
  rw [List.mem_append, List.mem_cons]
  constructor
  · refine ⟨fun hy => ⟨.inl hy, hbefore y hy x List.mem_cons_self⟩, ?_⟩
    rintro ⟨hy | rfl | hy, hlt⟩
    · exact hy
    · exact absurd hlt (Nat.lt_irrefl _)
    · exact absurd hlt (Nat.lt_asymm (hx y hy))
  · refine ⟨fun hy => ⟨.inr (.inr hy), hx y hy⟩, ?_⟩
    rintro ⟨hy | rfl | hy, hlt⟩
    · exact absurd hlt (Nat.lt_asymm (hbefore y hy x List.mem_cons_self))
    · exact absurd hlt (Nat.lt_irrefl _)
    · exact hy

namespace ElementTree

/-! ### Elements of tokens -/

/-- The elements are in the order of their first tokens. -/
def Increasing (tree : ElementTree) : Prop :=
  ∀ {i j : Nat} {x y : Element}, tree.nodes[i]? = some x → tree.nodes[j]? = some y →
    i < j → x.token < y.token

/-- The search finds the element of a token among those between two numbers. -/
theorem searchBetween_eq_some_iff {tree : ElementTree} (h : tree.Increasing)
    {token first last id : Nat} (hlast : last ≤ tree.nodes.size) :
    tree.searchBetween token first last = some id ↔
      first ≤ id ∧ id < last ∧ ∃ element, tree.nodes[id]? = some element ∧
        element.token = token := by
  fun_induction tree.searchBetween token first last with
  | case1 first last hlt middle hnone =>
    have hmiddle : middle < tree.nodes.size := by omega
    rw [Array.getElem?_eq_getElem hmiddle] at hnone
    cases hnone
  | case2 first last hlt middle element helement htoken ih =>
    -- What is at the middle or in front of it starts too early.
    rw [ih hlast]
    constructor
    · rintro ⟨hge, hrest⟩
      exact ⟨by omega, hrest⟩
    · rintro ⟨_, hid, found, hfound, rfl⟩
      refine ⟨?_, hid, found, hfound, rfl⟩
      by_contra hle
      rcases Nat.lt_or_eq_of_le (Nat.not_lt.1 hle) with hlt | rfl
      · exact Nat.lt_asymm htoken (h hfound helement hlt)
      · cases hfound.symm.trans helement
        exact Nat.lt_irrefl _ htoken
  | case3 first last hlt middle element helement _ htoken ih =>
    rw [ih (by omega)]
    constructor
    · rintro ⟨hge, hid, hrest⟩
      exact ⟨hge, by omega, hrest⟩
    · rintro ⟨hge, _, found, hfound, rfl⟩
      refine ⟨hge, ?_, found, hfound, rfl⟩
      by_contra hle
      rcases Nat.lt_or_eq_of_le (Nat.not_lt.1 hle) with hlt | rfl
      · exact Nat.lt_asymm htoken (h helement hfound hlt)
      · cases hfound.symm.trans helement
        exact Nat.lt_irrefl _ htoken
  | case4 first last hlt middle element helement hge hle =>
    constructor
    · intro heq
      rw [← Option.some.inj heq]
      exact ⟨by omega, by omega, element, helement, by omega⟩
    · rintro ⟨_, _, found, hfound, rfl⟩
      rcases Nat.lt_trichotomy id middle with hlt | rfl | hlt
      · exact absurd (h hfound helement hlt) hle
      · rfl
      · exact absurd (h helement hfound hlt) hge
  | case5 first last hge =>
    refine ⟨nofun, ?_⟩
    rintro ⟨hfirst, hid, _⟩
    omega

/-- The element of a token is the one that starts there. -/
theorem elementAt?_eq_some_iff {tree : ElementTree} (h : tree.Increasing) {token id : Nat} :
    tree.elementAt? token = some id ↔
      ∃ element, tree.nodes[id]? = some element ∧ element.token = token := by
  rw [elementAt?, searchBetween_eq_some_iff h (Nat.le_refl _)]
  refine ⟨fun ⟨_, _, hid⟩ => hid, fun hid => ⟨Nat.zero_le _, ?_, hid⟩⟩
  obtain ⟨element, helement, _⟩ := hid
  exact (Array.getElem?_eq_some_iff.1 helement).1

/-! ### Consistency -/

/-- The elements are in the order of their first tokens, by which they are found; all
    links agree with the links to parents; and the walks over the children of an
    element and over all elements nested in it come to an end, and meet each of them
    once and in the order of the tokens, so that parents are met in front of their
    children. -/
structure Consistent (tree : ElementTree) : Prop where
  /-- First tokens increase with the numbers of elements. -/
  increasing : tree.Increasing
  /-- The element of a token is the one that starts there. -/
  elementAt? {token id : Nat} : tree.elementAt? token = some id ↔
    ∃ element, tree.nodes[id]? = some element ∧ element.token = token
  /-- Roots have depth zero. -/
  root {id : Nat} {element : Element} (h : tree.nodes[id]? = some element)
    (hparent : element.parent = none) : element.depth = 0
  /-- Parents are in front of their children and one less deep. -/
  child {id p : Nat} {element : Element} (h : tree.nodes[id]? = some element)
    (hparent : element.parent = some p) :
    p < id ∧ ∃ outer, tree.nodes[p]? = some outer ∧ element.depth = outer.depth + 1
  /-- The first child is the least one. -/
  firstChild {id : Nat} {element : Element} (h : tree.nodes[id]? = some element) (c : Nat) :
    element.firstChild = some c ↔ IsLeast {c | IsParent (parentsOf tree.nodes) id c} c
  /-- The last child is the greatest one. -/
  lastChild {id : Nat} {element : Element} (h : tree.nodes[id]? = some element) (c : Nat) :
    element.lastChild = some c ↔ IsGreatest {c | IsParent (parentsOf tree.nodes) id c} c
  /-- The previous sibling is the greatest in front. -/
  previous {id : Nat} {element : Element} (h : tree.nodes[id]? = some element) (s : Nat) :
    element.previous = some s ↔
      IsGreatest {s | AreSiblings (parentsOf tree.nodes) s id ∧ s < id} s
  /-- The next sibling is the least behind. -/
  next {id : Nat} {element : Element} (h : tree.nodes[id]? = some element) (s : Nat) :
    element.next = some s ↔ IsLeast {s | AreSiblings (parentsOf tree.nodes) s id ∧ id < s} s
  /-- The links to siblings are inverse to each other. -/
  next_iff_previous {a b : Nat} : tree.nodes[a]?.bind Element.next = some b ↔
    tree.nodes[b]?.bind Element.previous = some a
  /-- The walk over the children comes to an end. -/
  walksSiblings {id : Nat} {element : Element} (h : tree.nodes[id]? = some element) :
    tree.WalksSiblings element.firstChild (tree.children id)
  /-- The children are met in order. -/
  pairwise_children {id : Nat} {element : Element} (h : tree.nodes[id]? = some element) :
    (tree.children id).Pairwise (· < ·)
  /-- The children are those with the element as their parent. -/
  mem_children {id : Nat} {element : Element} (h : tree.nodes[id]? = some element) (c : Nat) :
    c ∈ tree.children id ↔ IsParent (parentsOf tree.nodes) id c
  /-- The walk over the elements nested in one comes to an end. -/
  walksPreorder {id : Nat} {element : Element} (h : tree.nodes[id]? = some element) :
    tree.WalksPreorder (tree.children id) (tree.descendants id)
  /-- The elements nested in one are met in order. -/
  pairwise_descendants {id : Nat} {element : Element} (h : tree.nodes[id]? = some element) :
    (tree.descendants id).Pairwise (· < ·)
  /-- The elements nested in one are those with the element as an ancestor. -/
  mem_descendants {id : Nat} {element : Element} (h : tree.nodes[id]? = some element) (d : Nat) :
    d ∈ tree.descendants id ↔ IsAncestor (parentsOf tree.nodes) id d

section Links

variable {tree : ElementTree} {id : Nat} {element : Element}

theorem linksOf_of_getElem? (h : tree.nodes[id]? = some element) :
    (linksOf tree.nodes)[id]? = some element.links := by
  rw [getElem?_linksOf, h]
  rfl

theorem areSiblings_of_parent_eq {s : Nat} {sibling : Element}
    (hs : tree.nodes[s]? = some sibling) (h : tree.nodes[id]? = some element)
    (hparent : sibling.parent = element.parent) : AreSiblings (parentsOf tree.nodes) s id := by
  refine ⟨element.parent, ?_, ?_⟩
  · rw [getElem?_parentsOf, hs, Option.map_some, hparent]
  · rw [getElem?_parentsOf, h, Option.map_some]

theorem areSiblings_iff (h : tree.nodes[id]? = some element) (s : Nat) :
    AreSiblings (parentsOf tree.nodes) s id ↔ s ∈ kids (parentsOf tree.nodes) element.parent := by
  have hid : (parentsOf tree.nodes)[id]? = some element.parent := by
    rw [getElem?_parentsOf, h]
    rfl
  rw [mem_kids]
  constructor
  · rintro ⟨parent, hs, hparent⟩
    cases hid.symm.trans hparent
    exact hs
  · exact fun hs => ⟨element.parent, hs, hid⟩

/-- An element stands among its siblings. -/
theorem exists_split (h : tree.nodes[id]? = some element) :
    ∃ before after, kids (parentsOf tree.nodes) element.parent = before ++ id :: after := by
  refine List.append_of_mem (mem_kids.2 ?_)
  rw [getElem?_parentsOf, h]
  rfl

theorem previous_eq_some_iff (hlinked : Linked (linksOf tree.nodes))
    (h : tree.nodes[id]? = some element) (s : Nat) :
    element.previous = some s ↔
      IsGreatest {s | AreSiblings (parentsOf tree.nodes) s id ∧ s < id} s := by
  obtain ⟨before, after, hsplit⟩ := exists_split h
  have hsorted := pairwise_kids (parentsOf tree.nodes) element.parent
  have hfront : before.Pairwise (· < ·) := (List.pairwise_append.1 (hsplit ▸ hsorted)).1
  have hprevious : element.previous = before.getLast? :=
    hlinked.previous (linksOf_of_getElem? h) ((family_eq_kids ..).trans hsplit)
  have hset : {s | s ∈ before} = {s | AreSiblings (parentsOf tree.nodes) s id ∧ s < id} := by
    ext s
    rw [Set.mem_ofPred_eq, Set.mem_ofPred_eq, areSiblings_iff h]
    exact (mem_of_pairwise_split hsorted hsplit s).1
  rw [hprevious, getLast?_eq_some_iff_isGreatest hfront, hset]

theorem next_eq_some_iff (hlinked : Linked (linksOf tree.nodes))
    (h : tree.nodes[id]? = some element) (s : Nat) :
    element.next = some s ↔
      IsLeast {s | AreSiblings (parentsOf tree.nodes) s id ∧ id < s} s := by
  obtain ⟨before, after, hsplit⟩ := exists_split h
  have hsorted := pairwise_kids (parentsOf tree.nodes) element.parent
  have hbehind : after.Pairwise (· < ·) :=
    (List.pairwise_append.1 (hsplit ▸ hsorted)).2.1.tail
  have hnext : element.next = after.head? :=
    hlinked.next (linksOf_of_getElem? h) ((family_eq_kids ..).trans hsplit)
  have hset : {s | s ∈ after} = {s | AreSiblings (parentsOf tree.nodes) s id ∧ id < s} := by
    ext s
    rw [Set.mem_ofPred_eq, Set.mem_ofPred_eq, areSiblings_iff h]
    exact (mem_of_pairwise_split hsorted hsplit s).2
  rw [hnext, head?_eq_some_iff_isLeast hbehind, hset]

end Links

/-- The links to siblings are inverse to each other. -/
theorem next_eq_iff_previous_eq {tree : ElementTree} (hlinked : Linked (linksOf tree.nodes))
    {a b : Nat} : tree.nodes[a]?.bind Element.next = some b ↔
      tree.nodes[b]?.bind Element.previous = some a := by
  have hexists {s id : Nat} (h : AreSiblings (parentsOf tree.nodes) s id) :
      ∃ element, tree.nodes[s]? = some element := by
    obtain ⟨parent, hs, _⟩ := h
    rw [getElem?_parentsOf] at hs
    exact (Option.map_eq_some_iff.1 hs).imp fun _ => And.left
  rw [Option.bind_eq_some_iff, Option.bind_eq_some_iff]
  constructor
  · rintro ⟨x, hx, hnext⟩
    obtain ⟨⟨hsiblings, hlt⟩, hleast⟩ := (next_eq_some_iff hlinked hx b).1 hnext
    obtain ⟨y, hy⟩ := hexists hsiblings
    refine ⟨y, hy, (previous_eq_some_iff hlinked hy a).2 ⟨⟨hsiblings.symm, hlt⟩, ?_⟩⟩
    rintro s ⟨hs, hsb⟩
    by_contra hlt
    exact Nat.not_le.2 hsb (hleast ⟨hs.trans hsiblings, Nat.not_le.1 hlt⟩)
  · rintro ⟨y, hy, hprevious⟩
    obtain ⟨⟨hsiblings, hlt⟩, hgreatest⟩ := (previous_eq_some_iff hlinked hy a).1 hprevious
    obtain ⟨x, hx⟩ := hexists hsiblings
    refine ⟨x, hx, (next_eq_some_iff hlinked hx b).2 ⟨⟨hsiblings.symm, hlt⟩, ?_⟩⟩
    rintro s ⟨hs, has⟩
    by_contra hlt
    exact Nat.not_le.2 has (hgreatest ⟨hs.trans hsiblings, Nat.not_le.1 hlt⟩)

/-- Ordered elements with right links are consistent. -/
theorem consistent_of_linked {tree : ElementTree} (hlinked : Linked (linksOf tree.nodes))
    (hpreorder : InPreorder (parentsOf tree.nodes)) (hincreasing : tree.Increasing) :
    tree.Consistent where
  increasing := hincreasing
  elementAt? := elementAt?_eq_some_iff hincreasing
  root {id element} h hparent := by
    have hdepth := hlinked.depth (linksOf_of_getElem? h)
    have hnone : element.links.parent = none := hparent
    rw [hnone] at hdepth
    exact hdepth
  child {id p element} h hparent := by
    have hlinks := linksOf_of_getElem? h
    have hsome : element.links.parent = some p := hparent
    have hlt := hlinked.parent hlinks p hsome
    have hp : p < tree.nodes.size := Nat.lt_trans hlt (Array.getElem?_eq_some_iff.1 h).1
    have hdepth := hlinked.depth hlinks
    rw [hsome, depthBelow, getElem?_linksOf, Array.getElem?_eq_getElem hp] at hdepth
    exact ⟨hlt, _, Array.getElem?_eq_getElem hp, hdepth⟩
  firstChild {id element} h c := by
    have hfirst : element.firstChild = (family (linksOf tree.nodes) (some id)).head? :=
      hlinked.firstChild (linksOf_of_getElem? h)
    rw [hfirst, family_eq_kids, head?_eq_some_iff_isLeast (pairwise_kids ..)]
    simp only [mem_kids_iff_isParent]
  lastChild {id element} h c := by
    have hlast : element.lastChild = (family (linksOf tree.nodes) (some id)).getLast? :=
      hlinked.lastChild (linksOf_of_getElem? h)
    rw [hlast, family_eq_kids, getLast?_eq_some_iff_isGreatest (pairwise_kids ..)]
    simp only [mem_kids_iff_isParent]
  previous := previous_eq_some_iff hlinked
  next := next_eq_some_iff hlinked
  next_iff_previous := next_eq_iff_previous_eq hlinked
  walksSiblings := walksSiblings_children hlinked
  pairwise_children _ := by
    rw [children_eq_kids hlinked]
    exact pairwise_kids ..
  mem_children _ c := by
    rw [children_eq_kids hlinked]
    exact mem_kids_iff_isParent
  walksPreorder h := by
    obtain ⟨count, hwalk, hdescendants, _⟩ :=
      walksPreorder_descendants hlinked hpreorder (Array.getElem?_eq_some_iff.1 h).1
    rw [hdescendants]
    exact hwalk
  pairwise_descendants h := by
    obtain ⟨count, _, hdescendants, _⟩ :=
      walksPreorder_descendants hlinked hpreorder (Array.getElem?_eq_some_iff.1 h).1
    rw [hdescendants]
    exact List.pairwise_lt_range'
  mem_descendants h d := by
    obtain ⟨count, _, hdescendants, hancestor⟩ :=
      walksPreorder_descendants hlinked hpreorder (Array.getElem?_eq_some_iff.1 h).1
    rw [hdescendants, List.mem_range'_1, hancestor]
    exact Iff.rfl

theorem consistent_ofKinds (kinds : List TokenKind) : (ofKinds kinds).Consistent := by
  have hordered := ordered_run kinds
  exact consistent_of_linked (linked_ofKinds kinds) hordered.preorder hordered.increasing

/-- Whatever the tokens, the elements that are built of them are consistent. -/
theorem consistent_build (tokens : List PlacedToken) : (build tokens).Consistent :=
  consistent_ofKinds _

end ElementTree

end PugLint
