import Mathlib.Data.List.Sort
import Mathlib.Logic.Relation
import PugLint.Proofs.Element.Links

/-!
# Descent of elements

Elements are numbered in the order of their first tokens. Where a new element can be
nested in the last one and in those around it only, the elements nested in one are
those that follow it up to some number, and a walk along the links meets them in the
order of their numbers.

* `IsParent`, `IsAncestor`: nesting, told by the links to parents alone;
* `InPreorder`: parents are in front, and what is nested in an element is not
  interrupted;
* `InPreorder.concat`: a new element keeps it so;
* `ElementTree.WalksSiblings`, `ElementTree.WalksPreorder`: walks along the links as
  far as they lead;
* `ElementTree.walksPreorder_descendants`: the walk over the elements nested in one
  meets the numbers behind its own.
-/

namespace PugLint

/-! ### Ancestors -/

/-- An element is nested directly in another, in a list of the parents of all
    elements. -/
def IsParent (parents : List (Option Nat)) (p c : Nat) : Prop :=
  parents[c]? = some (some p)

/-- An element is nested in another, directly or not. -/
def IsAncestor (parents : List (Option Nat)) : Nat → Nat → Prop :=
  Relation.TransGen (IsParent parents)

/-- The last element, or one that the last element is nested in. -/
def AroundLast (parents : List (Option Nat)) (a : Nat) : Prop :=
  a + 1 = parents.length ∨ IsAncestor parents a (parents.length - 1)

section Ancestors

variable {parents : List (Option Nat)} {a p c d : Nat}

theorem IsParent.lt_length (h : IsParent parents p c) : c < parents.length :=
  (List.getElem?_eq_some_iff.1 h).1

theorem IsParent.eq {q : Nat} (h : IsParent parents p c) (h' : IsParent parents q c) : p = q :=
  Option.some.inj (Option.some.inj (h.symm.trans h'))

theorem mem_kids_iff_isParent : c ∈ kids parents (some p) ↔ IsParent parents p c :=
  mem_kids

/-- The ancestors of an element are its parent and the ancestors of that. -/
theorem isAncestor_iff :
    IsAncestor parents a d ↔ ∃ p, IsParent parents p d ∧ (a = p ∨ IsAncestor parents a p) := by
  constructor
  · intro h
    cases h with
    | single hd => exact ⟨a, hd, .inl rfl⟩
    | tail hp hd => exact ⟨_, hd, .inr hp⟩
  · rintro ⟨p, hd, rfl | hp⟩
    · exact .single hd
    · exact .tail hp hd

theorem IsAncestor.of_isParent (h : IsParent parents a d) : IsAncestor parents a d :=
  .single h

theorem IsAncestor.trans {b : Nat} (h : IsAncestor parents a b) (h' : IsAncestor parents b d) :
    IsAncestor parents a d :=
  Relation.TransGen.trans h h'

theorem IsAncestor.lt_length (h : IsAncestor parents a d) : d < parents.length := by
  obtain ⟨p, hd, _⟩ := isAncestor_iff.1 h
  exact hd.lt_length

theorem AroundLast.trans {b : Nat} (h : IsAncestor parents a b) (hb : AroundLast parents b) :
    AroundLast parents a := by
  rcases hb with hlast | hb
  · refine .inr ?_
    rwa [← hlast, Nat.add_sub_cancel]
  · exact .inr (h.trans hb)

/-! ### A new element -/

variable {q : Option Nat}

theorem isParent_concat_of_lt (h : c < parents.length) :
    IsParent (parents ++ [q]) p c ↔ IsParent parents p c := by
  rw [IsParent, IsParent, List.getElem?_append_left h]

theorem isParent_concat_length : IsParent (parents ++ [q]) p parents.length ↔ q = some p := by
  rw [IsParent, List.getElem?_concat_length, Option.some_inj]

theorem isParent_concat (h : IsParent parents p c) : IsParent (parents ++ [q]) p c :=
  (isParent_concat_of_lt h.lt_length).2 h

theorem isAncestor_concat (h : IsAncestor parents a d) : IsAncestor (parents ++ [q]) a d :=
  Relation.TransGen.mono (fun _ _ => isParent_concat) _ _ h

end Ancestors

/-- Parents are in front of their children, and all elements between an element and
    one nested in it are nested in it, too. -/
structure InPreorder (parents : List (Option Nat)) : Prop where
  /-- Parents are in front. -/
  parent_lt {p c : Nat} (h : IsParent parents p c) : p < c
  /-- No element interrupts those nested in another. -/
  between {a m d : Nat} (h : IsAncestor parents a d) (ham : a < m) (hmd : m ≤ d) :
    IsAncestor parents a m

namespace InPreorder

variable {parents : List (Option Nat)} {a d : Nat}

theorem nil : InPreorder [] where
  parent_lt h := nomatch h
  between h := absurd h.lt_length (Nat.not_lt_zero _)

theorem ancestor_lt (h : InPreorder parents) (hd : IsAncestor parents a d) : a < d := by
  induction hd with
  | single hp => exact h.parent_lt hp
  | tail _ hp ih => exact Nat.lt_trans ih (h.parent_lt hp)

/-- The ancestors of old elements stay the same. -/
theorem isAncestor_concat_of_lt (h : InPreorder parents) {q : Option Nat}
    (hd : d < parents.length) :
    IsAncestor (parents ++ [q]) a d ↔ IsAncestor parents a d := by
  refine ⟨fun hanc => ?_, isAncestor_concat⟩
  induction hanc with
  | single hp => exact .single ((isParent_concat_of_lt hd).1 hp)
  | tail _ hp ih =>
    have hp := (isParent_concat_of_lt hd).1 hp
    exact .tail (ih (Nat.lt_trans (h.parent_lt hp) hd)) hp

/-- The ancestors of a new element are its parent and the ancestors of that. -/
theorem isAncestor_concat_length (h : InPreorder parents) {q : Option Nat}
    (hq : ∀ p ∈ q, p < parents.length) :
    IsAncestor (parents ++ [q]) a parents.length ↔
      ∃ p ∈ q, a = p ∨ IsAncestor parents a p := by
  rw [isAncestor_iff]
  refine exists_congr fun p => ?_
  rw [isParent_concat_length, Option.mem_def, and_congr_right_iff]
  intro hp
  rw [h.isAncestor_concat_of_lt (hq p hp)]

theorem lt_length_of_aroundLast (h : InPreorder parents) (ha : AroundLast parents a) :
    a < parents.length := by
  rcases ha with hlast | hanc
  · exact hlast ▸ Nat.lt_succ_self a
  · exact Nat.lt_trans (h.ancestor_lt hanc) hanc.lt_length

/-- A new element that is nested in the last one or around it keeps the order. -/
theorem concat (h : InPreorder parents) {q : Option Nat} (hq : ∀ p ∈ q, AroundLast parents p) :
    InPreorder (parents ++ [q]) := by
  have hlt : ∀ p ∈ q, p < parents.length := fun p hp => h.lt_length_of_aroundLast (hq p hp)
  have hcases {c : Nat} (hc : c < (parents ++ [q]).length) :
      c < parents.length ∨ c = parents.length := by
    rw [List.length_append, List.length_singleton] at hc
    omega
  refine ⟨fun {p c} hp => ?_, fun {a m d} hd ham hmd => ?_⟩
  · rcases hcases hp.lt_length with hc | rfl
    · exact h.parent_lt ((isParent_concat_of_lt hc).1 hp)
    · exact hlt p (isParent_concat_length.1 hp)
  · rcases hcases hd.lt_length with hold | rfl
    · have hanc := (h.isAncestor_concat_of_lt hold).1 hd
      exact isAncestor_concat (h.between hanc ham hmd)
    · rcases Nat.lt_or_eq_of_le hmd with hm | rfl
      · -- Its ancestors are around the last of the old elements, and `m` is at most that.
        obtain ⟨p, hp, hap⟩ := (h.isAncestor_concat_length hlt).1 hd
        have haround : AroundLast parents a := by
          rcases hap with rfl | hap
          · exact hq a hp
          · exact .trans hap (hq p hp)
        rcases haround with hlast | hlast
        · omega
        · exact isAncestor_concat (h.between hlast ham (by omega))
      · exact hd

/-- The elements nested in an element are those behind it up to some number. -/
theorem exists_stop (h : InPreorder parents) (a : Nat) :
    ∃ stop, a < stop ∧ ∀ d, IsAncestor parents a d ↔ a < d ∧ d < stop := by
  -- The greatest of them is found from a bound downwards.
  have hbound (n : Nat) (hn : ∀ d, IsAncestor parents a d → d < a + 1 + n) :
      ∃ stop, a < stop ∧ ∀ d, IsAncestor parents a d ↔ a < d ∧ d < stop := by
    induction n with
    | zero =>
      refine ⟨a + 1, Nat.lt_succ_self a, fun d => ⟨fun hd => ?_, fun hd => ?_⟩⟩
      · exact ⟨h.ancestor_lt hd, hn d hd⟩
      · omega
    | succ n ih =>
      by_cases hlast : IsAncestor parents a (a + 1 + n)
      · refine ⟨a + 1 + n + 1, by omega, fun d => ⟨fun hd => ?_, fun hd => ?_⟩⟩
        · exact ⟨h.ancestor_lt hd, hn d hd⟩
        · exact h.between hlast hd.1 (by omega)
      · refine ih fun d hd => ?_
        have hne : d ≠ a + 1 + n := fun heq => hlast (heq ▸ hd)
        have hlt := hn d hd
        omega
  exact hbound parents.length fun d hd => Nat.lt_of_lt_of_le hd.lt_length (by omega)

end InPreorder

/-! ### Walks -/

theorem pairwise_kids (parents : List (Option Nat)) (parent : Option Nat) :
    (kids parents parent).Pairwise (· < ·) := by
  rw [← filter_range_eq_kids]
  exact List.pairwise_lt_range.filter _

/-- The elements from number `first` on and in front of `stop` whose parents are in
    front of `first`. -/
def frontier (parents : List (Option Nat)) (first stop : Nat) : List Nat :=
  (List.range' first (stop - first)).filter fun n => parents[n]?.join.all (· < first)

theorem mem_frontier {parents : List (Option Nat)} {first stop n : Nat} :
    n ∈ frontier parents first stop ↔
      first ≤ n ∧ n < stop ∧ ∀ p, IsParent parents p n → p < first := by
  have hjoin : parents[n]?.join.all (· < first) = true ↔
      ∀ p, IsParent parents p n → p < first := by
    rw [Option.all_eq_true]
    simp only [IsParent, Option.join_eq_some_iff, decide_eq_true_eq]
  rw [frontier, List.mem_filter, hjoin, List.mem_range'_1]
  constructor
  · rintro ⟨⟨hfirst, hlt⟩, hp⟩
    exact ⟨hfirst, by omega, hp⟩
  · rintro ⟨hfirst, hlt, hp⟩
    exact ⟨⟨hfirst, by omega⟩, hp⟩

theorem pairwise_frontier (parents : List (Option Nat)) (first stop : Nat) :
    (frontier parents first stop).Pairwise (· < ·) :=
  List.Pairwise.filter _ List.pairwise_lt_range'

/-- The children of an element come in front of what else is to be met. -/
theorem InPreorder.frontier_eq_cons {parents : List (Option Nat)} (h : InPreorder parents)
    {first stop : Nat} (hlt : first < stop)
    (hclosed : ∀ d, IsAncestor parents first d → d < stop) :
    ∃ pending, frontier parents first stop = first :: pending ∧
      frontier parents (first + 1) stop = kids parents (some first) ++ pending := by
  obtain ⟨pending, hpending⟩ : ∃ pending, frontier parents first stop = first :: pending := by
    have hrange : List.range' first (stop - first) =
        first :: List.range' (first + 1) (stop - first - 1) := by
      rw [← List.range'_succ]
      congr 1
      omega
    have hfirst : parents[first]?.join.all (· < first) = true := by
      rw [Option.all_eq_true]
      intro p hp
      exact decide_eq_true (h.parent_lt (Option.join_eq_some_iff.1 hp))
    exact ⟨_, (congrArg _ hrange).trans (List.filter_cons_of_pos hfirst)⟩
  have hmem (n : Nat) : n ∈ pending ↔
      first < n ∧ n < stop ∧ ∀ p, IsParent parents p n → p < first := by
    have hsorted := pairwise_frontier parents first stop
    rw [hpending, List.pairwise_cons] at hsorted
    constructor
    · intro hn
      obtain ⟨_, hrest⟩ := mem_frontier.1 (hpending ▸ List.mem_cons_of_mem first hn)
      exact ⟨hsorted.1 n hn, hrest⟩
    · rintro ⟨hfirst, hrest⟩
      have hn := hpending ▸ mem_frontier.2 ⟨Nat.le_of_lt hfirst, hrest⟩
      exact (List.mem_cons.1 hn).resolve_left (Nat.ne_of_gt hfirst)
  refine ⟨pending, hpending, ?_⟩
  -- Both lists are in order and have the same members.
  refine List.Pairwise.eq_of_mem_iff (r := (· < ·)) (pairwise_frontier ..) ?_ fun n => ?_
  · refine List.pairwise_append.2 ⟨pairwise_kids .., ?_, fun c hc n hn => ?_⟩
    · have hsorted := pairwise_frontier parents first stop
      rw [hpending] at hsorted
      exact hsorted.tail
    · -- An element between `first` and a child of it would be nested in it.
      have hc := mem_kids_iff_isParent.1 hc
      obtain ⟨hfirst, _, hparents⟩ := (hmem n).1 hn
      by_contra hnot
      have hanc := h.between (.of_isParent hc) hfirst (Nat.not_lt.1 hnot)
      obtain ⟨p, hp, hap⟩ := isAncestor_iff.1 hanc
      have hpfirst := hparents p hp
      rcases hap with rfl | hap
      · exact Nat.lt_irrefl _ hpfirst
      · exact Nat.lt_asymm hpfirst (h.ancestor_lt hap)
  · rw [mem_frontier, List.mem_append, hmem, mem_kids_iff_isParent]
    constructor
    · rintro ⟨hfirst, hstop, hparents⟩
      by_cases hn : IsParent parents first n
      · exact .inl hn
      · refine .inr ⟨hfirst, hstop, fun p hp => ?_⟩
        have hne : p ≠ first := fun heq => hn (heq ▸ hp)
        have := hparents p hp
        omega
    · rintro (hn | ⟨hfirst, hstop, hparents⟩)
      · refine ⟨h.parent_lt hn, hclosed n (.of_isParent hn), fun p hp => ?_⟩
        rw [hp.eq hn]
        exact Nat.lt_succ_self first
      · exact ⟨hfirst, hstop, fun p hp => Nat.lt_succ_of_lt (hparents p hp)⟩

/-- The parents of a list of elements. -/
def parentsOf (nodes : Array Element) : List (Option Nat) :=
  nodes.toList.map Element.parent

@[simp] theorem length_parentsOf (nodes : Array Element) :
    (parentsOf nodes).length = nodes.size := by
  rw [parentsOf, List.length_map, Array.length_toList]

theorem getElem?_parentsOf (nodes : Array Element) (id : Nat) :
    (parentsOf nodes)[id]? = nodes[id]?.map Element.parent := by
  rw [parentsOf, List.getElem?_map, Array.getElem?_toList]

theorem isParent_iff {nodes : Array Element} {p c : Nat} :
    IsParent (parentsOf nodes) p c ↔ ∃ element, nodes[c]? = some element ∧
      element.parent = some p := by
  rw [IsParent, getElem?_parentsOf, Option.map_eq_some_iff]

theorem family_eq_kids (nodes : Array Element) (parent : Option Nat) :
    family (linksOf nodes) parent = kids (parentsOf nodes) parent := by
  rw [family, linksOf, List.map_map]
  rfl

namespace ElementTree

/-- The walk along the links to the next sibling, from an element on or from none,
    meets the listed elements and then comes to an end. -/
inductive WalksSiblings (tree : ElementTree) : Option Nat → List Nat → Prop where
  /-- The end. -/
  | done : WalksSiblings tree none []
  /-- An element, and those that its link leads to. -/
  | step {id : Nat} {element : Element} {others : List Nat}
      (h : tree.nodes[id]? = some element) (hnext : WalksSiblings tree element.next others) :
      WalksSiblings tree (some id) (id :: others)

/-- The walk over some elements and all those nested in them, where the children of
    an element are met before what else is to be met, meets the listed elements and
    then comes to an end. -/
inductive WalksPreorder (tree : ElementTree) : List Nat → List Nat → Prop where
  /-- The end. -/
  | done : WalksPreorder tree [] []
  /-- An element, its children and the others. -/
  | step {id : Nat} {element : Element} {children pending others : List Nat}
      (h : tree.nodes[id]? = some element)
      (hchildren : WalksSiblings tree element.firstChild children)
      (hnext : WalksPreorder tree (children ++ pending) others) :
      WalksPreorder tree (id :: pending) (id :: others)

section Walks

variable {tree : ElementTree}

theorem children_eq_kids (h : Linked (linksOf tree.nodes)) (id : Nat) :
    tree.children id = kids (parentsOf tree.nodes) (some id) := by
  rw [children_eq_family h, family_eq_kids]

theorem walksSiblings_of_split (h : Linked (linksOf tree.nodes)) {parent : Option Nat}
    {before after : List Nat} (hsplit : family (linksOf tree.nodes) parent = before ++ after) :
    tree.WalksSiblings after.head? after := by
  induction after generalizing before with
  | nil => exact .done
  | cons id after ih =>
    have hmem : id ∈ family (linksOf tree.nodes) parent :=
      hsplit ▸ List.mem_append_right _ List.mem_cons_self
    obtain ⟨l, hl, _⟩ := mem_family.1 hmem
    rw [getElem?_linksOf] at hl
    obtain ⟨node, hnode, _⟩ := Option.map_eq_some_iff.1 hl
    have hnext := next_of_split h hsplit
    rw [hnode, Option.bind_some] at hnext
    rw [← List.singleton_append, ← List.append_assoc] at hsplit
    refine .step hnode ?_
    rw [hnext]
    exact ih hsplit

/-- The walk over the children of an element comes to an end. -/
theorem walksSiblings_children (h : Linked (linksOf tree.nodes)) {id : Nat} {element : Element}
    (hid : tree.nodes[id]? = some element) :
    tree.WalksSiblings element.firstChild (tree.children id) := by
  have hlinks : (linksOf tree.nodes)[id]? = some element.links := by
    rw [getElem?_linksOf, hid]
    rfl
  have hfirst : element.firstChild = (family (linksOf tree.nodes) (some id)).head? :=
    h.firstChild hlinks
  rw [children_eq_family h, hfirst]
  exact walksSiblings_of_split h (List.nil_append _).symm

theorem WalksSiblings.unique {start : Option Nat} {ids ids' : List Nat}
    (h : tree.WalksSiblings start ids) (h' : tree.WalksSiblings start ids') : ids = ids' := by
  induction h generalizing ids' with
  | done =>
    cases h'
    rfl
  | step hid _ ih =>
    cases h' with
    | step hid' hnext' =>
      cases hid.symm.trans hid'
      rw [ih hnext']

/-- A walk over elements that comes to an end is the one that a bound on its length
    allows. -/
theorem WalksPreorder.preorder_eq (h : Linked (linksOf tree.nodes)) {pending ids : List Nat}
    (hwalk : tree.WalksPreorder pending ids) {fuel : Nat} (hfuel : ids.length ≤ fuel) :
    tree.preorder fuel pending = ids := by
  induction hwalk generalizing fuel with
  | done => cases fuel <;> rfl
  | @step id element children pending others hid hchildren _ ih =>
    obtain ⟨fuel, rfl⟩ := Nat.exists_eq_add_of_lt (Nat.lt_of_lt_of_le (Nat.succ_pos _) hfuel)
    rw [Nat.zero_add] at hfuel ⊢
    have heq : tree.children id = children :=
      (walksSiblings_children h hid).unique hchildren
    rw [preorder, heq, ih (Nat.le_of_succ_le_succ hfuel)]

/-- From a number on, the walk meets all numbers up to one that nothing in between
    reaches beyond. -/
theorem walksPreorder_frontier (hlinked : Linked (linksOf tree.nodes))
    (h : InPreorder (parentsOf tree.nodes)) {first stop : Nat} (hle : first ≤ stop)
    (hstop : stop ≤ tree.nodes.size)
    (hclosed : ∀ n d, first ≤ n → n < stop → IsAncestor (parentsOf tree.nodes) n d → d < stop) :
    tree.WalksPreorder (frontier (parentsOf tree.nodes) first stop)
      (List.range' first (stop - first)) := by
  obtain ⟨count, rfl⟩ := Nat.exists_eq_add_of_le hle
  rw [Nat.add_sub_cancel_left]
  induction count generalizing first with
  | zero =>
    rw [frontier, Nat.add_zero, Nat.sub_self]
    exact .done
  | succ count ih =>
    rw [← Nat.succ_add_eq_add_succ first count] at hstop hclosed hle ⊢
    have hlt : first < first.succ + count := by omega
    obtain ⟨pending, hfirst, hnext⟩ := h.frontier_eq_cons hlt fun d =>
      hclosed first d (Nat.le_refl _) hlt
    obtain ⟨element, helement⟩ : ∃ element, tree.nodes[first]? = some element :=
      ⟨_, Array.getElem?_eq_getElem (Nat.lt_of_lt_of_le hlt hstop)⟩
    rw [hfirst, List.range'_succ]
    refine .step helement (walksSiblings_children hlinked helement) ?_
    rw [children_eq_kids hlinked, ← hnext]
    exact ih (Nat.le_add_right _ _) hstop fun n d hn => hclosed n d (Nat.le_of_succ_le hn)

/-- The walk over the elements nested in one meets the numbers behind its own, as far
    as elements are nested in it. -/
theorem walksPreorder_descendants (hlinked : Linked (linksOf tree.nodes))
    (h : InPreorder (parentsOf tree.nodes)) {id : Nat} (hid : id < tree.nodes.size) :
    ∃ count, tree.WalksPreorder (tree.children id) (List.range' (id + 1) count) ∧
      tree.descendants id = List.range' (id + 1) count ∧
      ∀ d, IsAncestor (parentsOf tree.nodes) id d ↔ id < d ∧ d < id + 1 + count := by
  obtain ⟨stop, hlt, hanc⟩ := h.exists_stop id
  obtain ⟨count, rfl⟩ := Nat.exists_eq_add_of_le (Nat.succ_le_of_lt hlt)
  have hsize : id.succ + count ≤ tree.nodes.size := by
    cases count with
    | zero => exact hid
    | succ count =>
      have hlast := ((hanc (id.succ + count)).2 ⟨by omega, by omega⟩).lt_length
      rw [length_parentsOf] at hlast
      omega
  have hkids : tree.children id = frontier (parentsOf tree.nodes) (id + 1) (id.succ + count) := by
    rw [children_eq_kids hlinked]
    refine List.Pairwise.eq_of_mem_iff (r := (· < ·)) (pairwise_kids ..) (pairwise_frontier ..)
      fun c => ?_
    rw [mem_kids_iff_isParent, mem_frontier]
    constructor
    · intro hc
      have hbounds := (hanc c).1 (.of_isParent hc)
      refine ⟨hbounds.1, hbounds.2, fun p hp => ?_⟩
      rw [hp.eq hc]
      exact Nat.lt_succ_self id
    · rintro ⟨hge, hlt, hparents⟩
      obtain ⟨p, hp, rfl | hap⟩ := isAncestor_iff.1 ((hanc c).2 ⟨hge, hlt⟩)
      · exact hp
      · have := hparents p hp
        have := h.ancestor_lt hap
        omega
  have hwalk := walksPreorder_frontier hlinked h (Nat.le_add_right (id + 1) count) hsize
    fun n d hn hlt hd => by
      have hn := (hanc n).2 ⟨hn, hlt⟩
      exact ((hanc d).1 (hn.trans hd)).2
  rw [← hkids, Nat.add_sub_cancel_left] at hwalk
  refine ⟨count, hwalk, ?_, hanc⟩
  rw [descendants]
  exact hwalk.preorder_eq hlinked (by rw [List.length_range']; omega)

end Walks

end ElementTree

end PugLint
