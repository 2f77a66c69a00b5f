import Mathlib.Data.List.Induction
import PugLint.Element

/-!
# Links of elements

An element that is opened becomes the last child of its parent, and five links are
set piece by piece. Whatever the tokens, all links then agree with the links to the
parents.

* `kids`, `family`: the children of a parent, told by the links to parents alone;
* `Linked`: all other links agree with those;
* `Linked.extended`: a new last child keeps them so;
* `ElementTree.children_eq_family`: walking along the links meets the children of an
  element;
* `ElementTree.linked_ofKinds`: the links of the elements of any list of tokens.
-/

namespace PugLint

/-! ### Numbers of children -/

/-- The places of a parent in a list of parents that starts at a number: the numbers
    of its children. -/
def kidsFrom (parent : Option Nat) : Nat → List (Option Nat) → List Nat
  | _, [] => []
  | n, p :: ps =>
    if p = parent then n :: kidsFrom parent (n + 1) ps else kidsFrom parent (n + 1) ps

/-- The numbers of the children of a parent, where all elements are numbered from
    zero on; without a parent, the numbers of the roots. -/
def kids (parents : List (Option Nat)) (parent : Option Nat) : List Nat :=
  kidsFrom parent 0 parents

theorem kidsFrom_append (parent : Option Nat) (n : Nat) (ps qs : List (Option Nat)) :
    kidsFrom parent n (ps ++ qs) = kidsFrom parent n ps ++ kidsFrom parent (n + ps.length) qs := by
  induction ps generalizing n with
  | nil => rfl
  | cons p ps ih =>
    rw [List.cons_append, kidsFrom, kidsFrom, ih, List.length_cons, Nat.add_assoc, Nat.add_comm 1]
    split <;> rfl

theorem kidsFrom_of_not_mem {parent : Option Nat} (n : Nat) {ps : List (Option Nat)}
    (h : parent ∉ ps) : kidsFrom parent n ps = [] := by
  induction ps generalizing n with
  | nil => rfl
  | cons p ps ih =>
    rw [List.mem_cons, not_or] at h
    rw [kidsFrom, if_neg (Ne.symm h.1), ih (n + 1) h.2]

theorem kids_concat (parents : List (Option Nat)) (p parent : Option Nat) :
    kids (parents ++ [p]) parent =
      kids parents parent ++ if p = parent then [parents.length] else [] := by
  rw [kids, kidsFrom_append, Nat.zero_add]
  rfl

theorem filter_range_eq_kids (parents : List (Option Nat)) (parent : Option Nat) :
    ((List.range parents.length).filter fun id => parents[id]? == some parent) =
      kids parents parent := by
  induction parents using List.reverseRecOn with
  | nil => rfl
  | append_singleton parents p ih =>
    have hbefore : (List.range parents.length).filter
        (fun id => (parents ++ [p])[id]? == some parent) =
        (List.range parents.length).filter fun id => parents[id]? == some parent := by
      refine List.filter_congr fun id hid => ?_
      rw [List.getElem?_append_left (List.mem_range.1 hid)]
    rw [List.length_append, List.length_singleton, List.range_succ, List.filter_append, hbefore, ih,
      kids_concat, List.filter_cons, List.filter_nil]
    by_cases h : p = parent <;> simp [h]

theorem mem_kids {parents : List (Option Nat)} {parent : Option Nat} {id : Nat} :
    id ∈ kids parents parent ↔ parents[id]? = some parent := by
  rw [← filter_range_eq_kids, List.mem_filter, List.mem_range, beq_iff_eq]
  refine ⟨And.right, fun h => ⟨?_, h⟩⟩
  exact (List.getElem?_eq_some_iff.1 h).1

theorem nodup_kids (parents : List (Option Nat)) (parent : Option Nat) :
    (kids parents parent).Nodup := by
  rw [← filter_range_eq_kids]
  exact List.nodup_range.filter _

theorem length_kids_le (parents : List (Option Nat)) (parent : Option Nat) :
    (kids parents parent).length ≤ parents.length := by
  rw [← filter_range_eq_kids]
  exact Nat.le_trans (List.length_filter_le ..) (Nat.le_of_eq List.length_range)

/-- Where a list with a last member is split at a member, that is the last one, or
    the last one is behind it. -/
theorem concat_eq_split {xs before after : List Nat} {last id : Nat}
    (h : xs ++ [last] = before ++ id :: after) :
    (xs = before ∧ id = last ∧ after = []) ∨
      ∃ after', after = after' ++ [last] ∧ xs = before ++ id :: after' := by
  rcases List.eq_nil_or_concat after with rfl | ⟨after', other, rfl⟩
  · obtain ⟨hxs, heq⟩ := List.append_inj' h rfl
    cases heq
    exact .inl ⟨hxs, rfl, rfl⟩
  · have hassoc : before ++ id :: (after' ++ [other]) = (before ++ id :: after') ++ [other] := by
      rw [List.append_assoc, List.cons_append]
    rw [List.concat_eq_append, hassoc] at h
    obtain ⟨hxs, heq⟩ := List.append_inj' h rfl
    cases heq
    exact .inr ⟨after', List.concat_eq_append, hxs⟩

/-! ### Links -/

/-- The links of an element. -/
structure Links where
  /-- The element that it is nested in. -/
  parent : Option Nat
  /-- How many elements it is nested in. -/
  depth : Nat
  /-- The first element nested in it. -/
  firstChild : Option Nat
  /-- The last element nested in it. -/
  lastChild : Option Nat
  /-- The element in front of it with the same parent. -/
  previous : Option Nat
  /-- The element behind it with the same parent. -/
  next : Option Nat

/-- The links of an element. -/
def Element.links (element : Element) : Links :=
  { parent := element.parent, depth := element.depth, firstChild := element.firstChild
    lastChild := element.lastChild, previous := element.previous, next := element.next }

/-- The children of a parent, or the roots, as the links of all elements to their
    parents tell. -/
def family (links : List Links) (parent : Option Nat) : List Nat :=
  kids (links.map Links.parent) parent

/-- The depth of the children of a parent. -/
def depthBelow (links : List Links) : Option Nat → Nat
  | none => 0
  | some p => (links[p]?.map Links.depth).getD 0 + 1

/-- All links agree with the links to the parents, and those lead to elements in
    front. -/
structure Linked (links : List Links) : Prop where
  /-- Parents stand in front of their children. -/
  parent {id : Nat} {l : Links} (h : links[id]? = some l) : ∀ p ∈ l.parent, p < id
  /-- Children are one deeper than their parent. -/
  depth {id : Nat} {l : Links} (h : links[id]? = some l) : l.depth = depthBelow links l.parent
  /-- The first child. -/
  firstChild {id : Nat} {l : Links} (h : links[id]? = some l) :
    l.firstChild = (family links (some id)).head?
  /-- The last child. -/
  lastChild {id : Nat} {l : Links} (h : links[id]? = some l) :
    l.lastChild = (family links (some id)).getLast?
  /-- The element in front with the same parent. -/
  previous {id : Nat} {l : Links} {before after : List Nat} (h : links[id]? = some l)
    (hsplit : family links l.parent = before ++ id :: after) : l.previous = before.getLast?
  /-- The element behind with the same parent. -/
  next {id : Nat} {l : Links} {before after : List Nat} (h : links[id]? = some l)
    (hsplit : family links l.parent = before ++ id :: after) : l.next = after.head?

theorem mem_family {links : List Links} {parent : Option Nat} {id : Nat} :
    id ∈ family links parent ↔ ∃ l, links[id]? = some l ∧ l.parent = parent := by
  rw [family, mem_kids, List.getElem?_map, Option.map_eq_some_iff]

/-- Without elements there are no links. -/
theorem Linked.nil : Linked [] where
  parent h := nomatch h
  depth h := nomatch h
  firstChild h := nomatch h
  lastChild h := nomatch h
  previous h := nomatch h
  next h := nomatch h

/-- The links of an element when a new one becomes the last child of its parent. -/
def Links.extend (new : Nat) (parent previous : Option Nat) (id : Nat) (l : Links) : Links :=
  { l with
    next := if previous = some id then some new else l.next
    firstChild := if parent = some id ∧ previous = none then some new else l.firstChild
    lastChild := if parent = some id then some new else l.lastChild }

/-- The links when a new element becomes the last child of its parent. -/
def extended (links : List Links) (parent : Option Nat) : List Links :=
  let previous := (family links parent).getLast?
  links.mapIdx (Links.extend links.length parent previous) ++
    [{ parent, depth := depthBelow links parent, firstChild := none, lastChild := none
       previous, next := none }]

section Extended

variable {links : List Links} {parent : Option Nat}

theorem extended_cases {id : Nat} {l : Links} (h : (extended links parent)[id]? = some l) :
    (∃ old, links[id]? = some old ∧
      l = old.extend links.length parent (family links parent).getLast? id) ∨
    (id = links.length ∧
      l = { parent, depth := depthBelow links parent, firstChild := none, lastChild := none
            previous := (family links parent).getLast?, next := none }) := by
  rcases Nat.lt_or_ge id links.length with hlt | hge
  · rw [extended, List.getElem?_append_left (by simpa using hlt), List.getElem?_mapIdx,
      Option.map_eq_some_iff] at h
    obtain ⟨old, hold, rfl⟩ := h
    exact .inl ⟨old, hold, rfl⟩
  · rw [extended, List.getElem?_append_right (by simpa using hge), List.length_mapIdx,
      List.getElem?_singleton] at h
    split at h
    · rename_i hzero
      cases h
      exact .inr ⟨by omega, rfl⟩
    · cases h

theorem length_extended : (extended links parent).length = links.length + 1 := by
  rw [extended, List.length_append, List.length_mapIdx, List.length_singleton]

theorem extended_of_lt {id : Nat} {l : Links} (h : links[id]? = some l) :
    (extended links parent)[id]? =
      some (l.extend links.length parent (family links parent).getLast? id) := by
  have hlt : id < links.length := (List.getElem?_eq_some_iff.1 h).1
  rw [extended, List.getElem?_append_left (by simpa using hlt), List.getElem?_mapIdx, h]
  rfl

theorem map_parent_extended :
    (extended links parent).map Links.parent = links.map Links.parent ++ [parent] := by
  have hold (previous : Option Nat) :
      (links.mapIdx (Links.extend links.length parent previous)).map Links.parent =
        links.map Links.parent := by
    refine List.ext_getElem? fun id => ?_
    rw [List.getElem?_map, List.getElem?_mapIdx, Option.map_map, List.getElem?_map]
    rfl
  rw [extended, List.map_append, hold]
  rfl

theorem family_extended (q : Option Nat) :
    family (extended links parent) q =
      family links q ++ if parent = q then [links.length] else [] := by
  rw [family, map_parent_extended, kids_concat, List.length_map]
  rfl

theorem depthBelow_extended {p : Option Nat} (h : ∀ id ∈ p, id < links.length) :
    depthBelow (extended links parent) p = depthBelow links p := by
  cases p with
  | none => rfl
  | some id =>
    obtain ⟨l, hl⟩ : ∃ l, links[id]? = some l := ⟨_, List.getElem?_eq_getElem (h id rfl)⟩
    rw [depthBelow, depthBelow, extended_of_lt hl, hl]
    rfl

/-- The new element is the last of its family, and the others keep their places. -/
theorem family_extended_split {q : Option Nat} {before after : List Nat} {id : Nat}
    (h : family (extended links parent) q = before ++ id :: after) (hid : id ≠ links.length) :
    ∃ after', family links q = before ++ id :: after' ∧
      after = after' ++ if parent = q then [links.length] else [] := by
  rw [family_extended] at h
  by_cases hq : parent = q
  · rw [if_pos hq] at h ⊢
    rcases concat_eq_split h with ⟨_, hnew, _⟩ | ⟨after', hafter, hfamily⟩
    · exact absurd hnew hid
    · exact ⟨after', hfamily, hafter⟩
  · rw [if_neg hq, List.append_nil] at h
    rw [if_neg hq]
    exact ⟨after, h, (List.append_nil _).symm⟩

theorem length_notMem_family : links.length ∉ family links parent := by
  intro h
  obtain ⟨l, hl, _⟩ := mem_family.1 h
  exact absurd (List.getElem?_eq_some_iff.1 hl).1 (Nat.lt_irrefl _)

theorem family_extended_new {before after : List Nat}
    (h : family (extended links parent) parent = before ++ links.length :: after) :
    family links parent = before ∧ after = [] := by
  rw [family_extended, if_pos rfl] at h
  rcases concat_eq_split h with ⟨hfamily, _, hafter⟩ | ⟨after', _, hfamily⟩
  · exact ⟨hfamily, hafter⟩
  · exact absurd (hfamily ▸ List.mem_append_right _ List.mem_cons_self) length_notMem_family

end Extended

/-- An element is the last of its family if nothing is behind it. -/
theorem getLast?_family_split {links : List Links} {q : Option Nat} {before after : List Nat}
    {id : Nat} (h : family links q = before ++ id :: after) :
    (family links q).getLast? = some id ↔ after = [] := by
  have hnodup : (before ++ id :: after).Nodup := h ▸ nodup_kids ..
  rw [h, List.getLast?_append, List.getLast?_cons]
  rcases List.eq_nil_or_concat after with rfl | ⟨after, last, rfl⟩
  · simp
  · have hne : id ≠ last := by
      rintro rfl
      simp [List.nodup_append] at hnodup
    simp [Ne.symm hne]

/-- What is no element has no children. -/
theorem Linked.family_of_le {links : List Links} (h : Linked links) {id : Nat}
    (hid : links.length ≤ id) : family links (some id) = [] := by
  refine List.eq_nil_iff_forall_not_mem.2 fun child hchild => ?_
  obtain ⟨l, hl, hparent⟩ := mem_family.1 hchild
  have hfront : id < child := h.parent hl id hparent
  have hlt : child < links.length := (List.getElem?_eq_some_iff.1 hl).1
  omega

/-- A new last child keeps all links right. -/
theorem Linked.extended {links : List Links} (h : Linked links) {parent : Option Nat}
    (hparent : ∀ p ∈ parent, p < links.length) : Linked (extended links parent) where
  parent hl := by
    rcases extended_cases hl with ⟨old, hold, rfl⟩ | ⟨rfl, rfl⟩
    · exact fun p hp => h.parent hold p hp
    · exact hparent
  depth hl := by
    rcases extended_cases hl with ⟨old, hold, rfl⟩ | ⟨rfl, rfl⟩
    · have hlt : ∀ p ∈ old.parent, p < links.length := fun p hp =>
        Nat.lt_trans (h.parent hold p hp) (List.getElem?_eq_some_iff.1 hold).1
      exact (h.depth hold).trans (depthBelow_extended hlt).symm
    · exact (depthBelow_extended hparent).symm
  firstChild hl := by
    rw [family_extended]
    rcases extended_cases hl with ⟨old, hold, rfl⟩ | ⟨rfl, rfl⟩
    · rename_i id
      rw [Links.extend, h.firstChild hold]
      by_cases hp : parent = some id
      · cases hfamily : family links (some id) <;> simp [hp, hfamily]
      · simp [hp]
    · have hne : parent ≠ some links.length := fun heq => Nat.lt_irrefl _ (hparent _ heq)
      rw [h.family_of_le (Nat.le_refl _), if_neg hne]
      rfl
  lastChild hl := by
    rw [family_extended]
    rcases extended_cases hl with ⟨old, hold, rfl⟩ | ⟨rfl, rfl⟩
    · rename_i id
      rw [Links.extend, h.lastChild hold]
      by_cases hp : parent = some id <;> simp [hp]
    · have hne : parent ≠ some links.length := fun heq => Nat.lt_irrefl _ (hparent _ heq)
      rw [h.family_of_le (Nat.le_refl _), if_neg hne]
      rfl
  previous hl hsplit := by
    rcases extended_cases hl with ⟨old, hold, rfl⟩ | ⟨rfl, rfl⟩
    · have hne := Nat.ne_of_lt (List.getElem?_eq_some_iff.1 hold).1
      obtain ⟨after, hfamily, _⟩ := family_extended_split (q := old.parent) hsplit hne
      exact (h.previous hold hfamily : old.previous = _)
    · obtain ⟨hfamily, _⟩ := family_extended_new hsplit
      rw [hfamily]
  next hl hsplit := by
    rcases extended_cases hl with ⟨old, hold, rfl⟩ | ⟨rfl, rfl⟩
    · rename_i id _ _
      have hne := Nat.ne_of_lt (List.getElem?_eq_some_iff.1 hold).1
      obtain ⟨after, hfamily, rfl⟩ := family_extended_split (q := old.parent) hsplit hne
      have hlast := getLast?_family_split hfamily
      rw [Links.extend, h.next hold hfamily]
      by_cases hq : parent = old.parent
      · -- The element behind is the new one just when there was none.
        rw [hq, if_pos rfl]
        cases after with
        | nil => exact if_pos (hlast.2 rfl)
        | cons other after => exact if_neg (mt hlast.1 (List.cons_ne_nil _ _))
      · have hother : (family links parent).getLast? ≠ some id := by
          intro heq
          obtain ⟨l, hl, hparent⟩ := mem_family.1 (List.mem_of_getLast? heq)
          rw [hold] at hl
          cases hl
          exact hq hparent.symm
        simp [hother, hq]
    · obtain ⟨_, rfl⟩ := family_extended_new hsplit
      rfl

/-- The links of a list of elements. -/
def linksOf (nodes : Array Element) : List Links :=
  nodes.toList.map Element.links

@[simp] theorem length_linksOf (nodes : Array Element) : (linksOf nodes).length = nodes.size := by
  rw [linksOf, List.length_map, Array.length_toList]

theorem getElem?_linksOf (nodes : Array Element) (id : Nat) :
    (linksOf nodes)[id]? = nodes[id]?.map Element.links := by
  rw [linksOf, List.getElem?_map, Array.getElem?_toList]

/-! ### Walks -/

namespace ElementTree

section Walks

variable {tree : ElementTree}

theorem next_of_split (h : Linked (linksOf tree.nodes)) {parent : Option Nat}
    {before after : List Nat} {id : Nat}
    (hsplit : family (linksOf tree.nodes) parent = before ++ id :: after) :
    tree.nodes[id]?.bind Element.next = after.head? := by
  have hmem : id ∈ family (linksOf tree.nodes) parent :=
    hsplit ▸ List.mem_append_right _ List.mem_cons_self
  obtain ⟨l, hl, rfl⟩ := mem_family.1 hmem
  rw [← h.next hl hsplit]
  rw [getElem?_linksOf] at hl
  obtain ⟨node, hnode, rfl⟩ := Option.map_eq_some_iff.1 hl
  rw [hnode]
  rfl

/-- From an element on, the links to the next sibling lead to those behind it in its
    family. -/
theorem siblingsFrom_of_split (h : Linked (linksOf tree.nodes)) {parent : Option Nat}
    {before after : List Nat} {id fuel : Nat}
    (hsplit : family (linksOf tree.nodes) parent = before ++ id :: after)
    (hfuel : after.length < fuel) : tree.siblingsFrom fuel (some id) = id :: after := by
  induction after generalizing before id fuel with
  | nil =>
    obtain ⟨fuel, rfl⟩ := Nat.exists_eq_add_one_of_ne_zero (Nat.ne_of_gt hfuel)
    rw [siblingsFrom, next_of_split h hsplit]
    cases fuel <;> rfl
  | cons other after ih =>
    obtain ⟨fuel, rfl⟩ := Nat.exists_eq_add_one_of_ne_zero (Nat.ne_zero_of_lt hfuel)
    have hbehind : family (linksOf tree.nodes) parent = (before ++ [id]) ++ other :: after := by
      rw [hsplit, List.append_assoc]
      rfl
    rw [siblingsFrom, next_of_split h hsplit, List.head?_cons,
      ih hbehind (Nat.lt_of_succ_lt_succ hfuel)]

/-- Walking along the links to the next sibling meets all children. -/
theorem children_eq_family (h : Linked (linksOf tree.nodes)) (id : Nat) :
    tree.children id = family (linksOf tree.nodes) (some id) := by
  have hfirst : tree.nodes[id]?.bind Element.firstChild =
      (family (linksOf tree.nodes) (some id)).head? := by
    cases hnode : tree.nodes[id]? with
    | none =>
      have hid : (linksOf tree.nodes).length ≤ id := by
        rw [length_linksOf]
        exact Array.getElem?_eq_none_iff.1 hnode
      rw [h.family_of_le hid]
      rfl
    | some node =>
      have hlinks : (linksOf tree.nodes)[id]? = some node.links := by
        rw [getElem?_linksOf, hnode]
        rfl
      exact h.firstChild hlinks
  rw [children, hfirst]
  cases hfamily : family (linksOf tree.nodes) (some id) with
  | nil => cases tree.nodes.size <;> rfl
  | cons child others =>
    have hlength := length_kids_le ((linksOf tree.nodes).map Links.parent) (some id)
    rw [← family, hfamily, List.length_map, length_linksOf] at hlength
    exact siblingsFrom_of_split h (hfamily.trans (List.nil_append _).symm) hlength

theorem roots_eq_family (tree : ElementTree) :
    tree.roots = family (linksOf tree.nodes) none := by
  rw [family, ← filter_range_eq_kids, roots, List.length_map, length_linksOf]
  refine List.filter_congr fun id hid => ?_
  obtain ⟨node, hnode⟩ : ∃ node, tree.nodes[id]? = some node :=
    ⟨_, Array.getElem?_eq_getElem (List.mem_range.1 hid)⟩
  rw [List.getElem?_map, getElem?_linksOf, hnode]
  cases hparent : node.parent <;> simp [Element.links, hparent]

end Walks

end ElementTree

/-! ### Opening elements -/

namespace ElementTree.Builder

/-- The parent of an element that is opened. -/
def parent (b : Builder) : Option Nat :=
  if b.afterColon then b.currentOwner else b.innermost

/-- The element in front of one that is opened. -/
def previous (b : Builder) : Option Nat :=
  match b.parent with
  | some p => b.nodes[p]?.bind Element.lastChild
  | none => lastRoot? b.nodes

/-- The depth of an element that is opened. -/
def depth (b : Builder) : Nat :=
  match b.parent with
  | some p => (b.nodes[p]?.map Element.depth).getD 0 + 1
  | none => 0

/-- Links an element to the one in front of it. -/
def linkNext (previous : Option Nat) (new : Nat) (nodes : Array Element) : Array Element :=
  match previous with
  | some p => nodes.modify p ({ · with next := some new })
  | none => nodes

/-- Links an element to its parent. -/
def linkChild (parent previous : Option Nat) (new : Nat) (nodes : Array Element) :
    Array Element :=
  match parent with
  | some p =>
    nodes.modify p fun node =>
      { node with
        firstChild := if previous.isNone then some new else node.firstChild
        lastChild := some new }
  | none => nodes

/-- Opening an element adds it and links it to the one in front and to its parent. -/
theorem nodes_openElement (b : Builder) (token : Nat) (name : String) (kind : ElementKind)
    (tagToken : Option Nat) :
    (b.openElement token name kind tagToken).nodes =
      linkChild b.parent b.previous b.nodes.size (linkNext b.previous b.nodes.size (b.nodes.push
        { name, kind, token, tagToken, attributes := [], parent := b.parent, firstChild := none
          lastChild := none, previous := b.previous, next := none, depth := b.depth
          endToken := token + 1 })) :=
  rfl

theorem getElem?_linkNext (previous : Option Nat) (new : Nat) (nodes : Array Element) (id : Nat) :
    (linkNext previous new nodes)[id]? = nodes[id]?.map fun node =>
      { node with next := if previous = some id then some new else node.next } := by
  cases previous with
  | none => simp [linkNext]
  | some p =>
    rw [linkNext, Array.getElem?_modify]
    by_cases h : p = id <;> simp [h]

theorem getElem?_linkChild (parent previous : Option Nat) (new : Nat) (nodes : Array Element)
    (id : Nat) :
    (linkChild parent previous new nodes)[id]? = nodes[id]?.map fun node =>
      { node with
        firstChild := if parent = some id ∧ previous = none then some new else node.firstChild
        lastChild := if parent = some id then some new else node.lastChild } := by
  cases parent with
  | none => simp [linkChild]
  | some p =>
    rw [linkChild, Array.getElem?_modify]
    by_cases h : p = id <;> simp [h]

theorem lastRoot?_eq (nodes : Array Element) :
    lastRoot? nodes = (family (linksOf nodes) none).getLast? := by
  rw [← roots_eq_family ⟨nodes, #[]⟩]
  rfl

section Open

variable {b : Builder}

/-- The element in front of one that is opened is the last child of its parent. -/
theorem previous_eq (h : Linked (linksOf b.nodes)) (hlt : ∀ p ∈ b.parent, p < b.nodes.size) :
    b.previous = (family (linksOf b.nodes) b.parent).getLast? := by
  rw [previous]
  cases hparent : b.parent with
  | none => exact lastRoot?_eq b.nodes
  | some p =>
    have hl := getElem?_linksOf b.nodes p
    rw [Array.getElem?_eq_getElem (hlt p hparent)] at hl
    simp only
    rw [Array.getElem?_eq_getElem (hlt p hparent)]
    exact h.lastChild hl

theorem depth_eq (b : Builder) : b.depth = depthBelow (linksOf b.nodes) b.parent := by
  rw [depth]
  cases b.parent with
  | none => rfl
  | some p =>
    simp only [depthBelow]
    rw [getElem?_linksOf, Option.map_map]
    rfl

theorem linksOf_openElement (h : Linked (linksOf b.nodes))
    (hlt : ∀ p ∈ b.parent, p < b.nodes.size) (token : Nat) (name : String) (kind : ElementKind)
    (tagToken : Option Nat) :
    linksOf (b.openElement token name kind tagToken).nodes =
      extended (linksOf b.nodes) b.parent := by
  have hprevious : ∀ p ∈ b.previous, p < b.nodes.size := by
    intro p hp
    rw [previous_eq h hlt] at hp
    obtain ⟨l, hl, _⟩ := mem_family.1 (List.mem_of_getLast? hp)
    exact length_linksOf b.nodes ▸ (List.getElem?_eq_some_iff.1 hl).1
  refine List.ext_getElem? fun id => ?_
  rw [getElem?_linksOf, nodes_openElement, getElem?_linkChild, getElem?_linkNext,
    Array.getElem?_push, extended, ← previous_eq h hlt, ← depth_eq, length_linksOf]
  rcases Nat.lt_trichotomy id b.nodes.size with hid | rfl | hid
  · rw [if_neg (Nat.ne_of_lt hid), List.getElem?_append_left (by simpa using hid),
      List.getElem?_mapIdx, getElem?_linksOf]
    simp only [Option.map_map]
    rfl
  · have hnext : b.previous ≠ some b.nodes.size := fun heq => Nat.lt_irrefl _ (hprevious _ heq)
    have hchild : b.parent ≠ some b.nodes.size := fun heq => Nat.lt_irrefl _ (hlt _ heq)
    simp [hnext, hchild, Element.links]
  · have hnone : b.nodes[id]? = none := Array.getElem?_eq_none (Nat.le_of_lt hid)
    have hshort : (linksOf b.nodes).length + 1 ≤ id := by
      rw [length_linksOf]
      exact hid
    rw [if_neg (Nat.ne_of_gt hid), hnone, List.getElem?_eq_none (by simpa using hshort)]
    rfl

end Open

/-! ### Building -/

/-- The links are right, and the open elements are elements. -/
structure Sound (b : Builder) : Prop where
  /-- The links. -/
  linked : Linked (linksOf b.nodes)
  /-- The open elements. -/
  stack : ∀ entry ∈ b.stack, entry.1 < b.nodes.size
  /-- The element whose head is being read. -/
  current : ∀ id ∈ b.current, id < b.nodes.size

theorem Sound.start : Builder.start.Sound where
  linked := Linked.nil
  stack := nofun
  current := nofun

section Sound

variable {b : Builder}

theorem Sound.innermost (h : b.Sound) : ∀ p ∈ b.innermost, p < b.nodes.size := by
  intro p hp
  obtain ⟨entry, hentry, rfl⟩ := Option.map_eq_some_iff.1 hp
  exact h.stack entry (List.mem_of_head? hentry)

theorem Sound.currentOwner (h : b.Sound) : ∀ p ∈ b.currentOwner, p < b.nodes.size := by
  intro p hp
  rcases Option.or_eq_some_iff.1 hp with hcurrent | ⟨_, hinnermost⟩
  · exact h.current p hcurrent
  · exact h.innermost p hinnermost

theorem Sound.parent (h : b.Sound) : ∀ p ∈ b.parent, p < b.nodes.size := by
  rw [Builder.parent]
  split
  · exact h.currentOwner
  · exact h.innermost

theorem Sound.openElement (h : b.Sound) (token : Nat) (name : String) (kind : ElementKind)
    (tagToken : Option Nat) : (b.openElement token name kind tagToken).Sound := by
  have hlinks := linksOf_openElement h.linked h.parent token name kind tagToken
  have hsize : (b.openElement token name kind tagToken).nodes.size = b.nodes.size + 1 := by
    rw [← length_linksOf, hlinks, length_extended, length_linksOf]
  refine ⟨?_, ?_, ?_⟩
  · rw [hlinks]
    exact h.linked.extended (by simpa using h.parent)
  · intro entry hentry
    rw [hsize]
    rcases List.mem_cons.1 hentry with rfl | hentry
    · exact Nat.lt_succ_self _
    · exact Nat.lt_succ_of_lt (h.stack entry hentry)
  · intro id hid
    cases hid
    rw [hsize]
    exact Nat.lt_succ_self _

/-- A change of an element is not seen by a look at other fields. -/
theorem map_modify {α : Type} {look : Element → α} {f : Element → Element}
    (nodes : Array Element) (id : Nat) (h : ∀ element, look (f element) = look element) :
    (nodes.modify id f).toList.map look = nodes.toList.map look := by
  refine List.ext_getElem? fun other => ?_
  rw [List.getElem?_map, Array.getElem?_toList, Array.getElem?_modify, List.getElem?_map,
    Array.getElem?_toList]
  split
  · rw [Option.map_map]
    exact congrArg (nodes[other]?.map ·) (funext h)
  · rfl

theorem map_closeFrom {α : Type} {look : Element → α}
    (h : ∀ element token, look { element with endToken := token } = look element)
    (nodes : Array Element) (level token : Nat) (stack : List (Nat × Nat)) :
    (closeFrom nodes level token stack).1.toList.map look = nodes.toList.map look := by
  induction stack generalizing nodes with
  | nil => rfl
  | cons entry stack ih =>
    rw [closeFrom]
    split
    · rfl
    · rw [ih, map_modify _ _ fun element => h element token]

/-- An opened element is added to what is seen of the others without a look at their
    links to children and siblings. -/
theorem map_openElement {α : Type} {look : Element → α}
    (hnext : ∀ element next, look { element with next } = look element)
    (hchild : ∀ element firstChild lastChild,
      look { element with firstChild, lastChild } = look element)
    (b : Builder) (token : Nat) (name : String) (kind : ElementKind) (tagToken : Option Nat) :
    (b.openElement token name kind tagToken).nodes.toList.map look =
      b.nodes.toList.map look ++ [look
        { name, kind, token, tagToken, attributes := [], parent := b.parent, firstChild := none
          lastChild := none, previous := b.previous, next := none, depth := b.depth
          endToken := token + 1 }] := by
  have hlinkNext (previous : Option Nat) (new : Nat) (nodes : Array Element) :
      (linkNext previous new nodes).toList.map look = nodes.toList.map look := by
    cases previous with
    | none => rfl
    | some p => exact map_modify _ _ fun element => hnext element _
  have hlinkChild (parent previous : Option Nat) (new : Nat) (nodes : Array Element) :
      (linkChild parent previous new nodes).toList.map look = nodes.toList.map look := by
    cases parent with
    | none => rfl
    | some p => exact map_modify _ _ fun element => hchild element _ _
  rw [nodes_openElement, hlinkChild, hlinkNext, Array.toList_push, List.map_append]
  rfl

theorem closeFrom_suffix (nodes : Array Element) (level token : Nat) (stack : List (Nat × Nat)) :
    (closeFrom nodes level token stack).2 <:+ stack := by
  induction stack generalizing nodes with
  | nil => exact List.suffix_rfl
  | cons entry stack ih =>
    rw [closeFrom]
    split
    · exact List.suffix_rfl
    · exact (ih _).trans (List.suffix_cons ..)

/-- Whether a builder is sound depends on its links and its open elements only. -/
theorem Sound.congr {c : Builder} (h : b.Sound) (hlinks : linksOf c.nodes = linksOf b.nodes)
    (hstack : c.stack <:+ b.stack) (hcurrent : ∀ id ∈ c.current, id ∈ b.current) : c.Sound := by
  have hsize : c.nodes.size = b.nodes.size := by
    rw [← length_linksOf, hlinks, length_linksOf]
  refine ⟨hlinks ▸ h.linked, fun entry hentry => ?_, fun id hid => ?_⟩
  · exact hsize ▸ h.stack entry (hstack.mem hentry)
  · exact hsize ▸ h.current id (hcurrent id hid)

theorem Sound.closeTo (h : b.Sound) (level token : Nat) : (b.closeTo level token).Sound :=
  h.congr (map_closeFrom (fun _ _ => rfl) ..) (closeFrom_suffix ..) fun _ => id

theorem Sound.newLine (h : b.Sound) : b.newLine.Sound :=
  h.congr rfl List.suffix_rfl nofun

/-- Every token keeps the links right. -/
theorem Sound.step (h : b.Sound) (i : Nat) (kind : TokenKind) : (b.step i kind).Sound := by
  unfold Builder.step
  split
  case h_1 =>
    split
    · exact h.congr rfl List.suffix_rfl fun _ => id
    · exact (h.closeTo b.level i).newLine
  case h_2 => exact h.congr rfl List.suffix_rfl nofun
  case h_3 => exact (h.closeTo (b.level - 1) i).congr rfl List.suffix_rfl nofun
  case h_4 => exact (h.closeTo 0 i).congr rfl List.suffix_rfl fun _ => id
  case h_5 | h_6 => exact h.openElement ..
  case h_7 | h_8 =>
    split
    · exact h.openElement ..
    · exact h.congr rfl List.suffix_rfl fun _ => id
  case h_12 =>
    refine h.congr ?_ List.suffix_rfl fun _ => id
    cases b.current with
    | none => rfl
    | some id => exact map_modify _ _ fun _ => rfl
  all_goals exact h.congr rfl List.suffix_rfl fun _ => id

end Sound

theorem Sound.run {b : Builder} (h : b.Sound) (i : Nat) (kinds : List TokenKind) :
    (b.run i kinds).Sound := by
  induction kinds generalizing b i with
  | nil => exact h.closeTo 0 i
  | cons kind kinds ih => exact ih (h.step i kind) (i + 1)

end ElementTree.Builder

namespace ElementTree

/-- The links of a forest are right, whatever the tokens. -/
theorem linked_ofKinds (kinds : List TokenKind) : Linked (linksOf (ofKinds kinds).nodes) :=
  (Builder.Sound.start.run 0 kinds).linked

end ElementTree

end PugLint
