import PugLint.Proofs.Element.Descent

/-!
# Order of elements

Whatever the tokens, a token opens an element, adds an attribute to the last one,
closes some of the open elements or leaves all of them as they are. From this it
follows that the elements are in the order of their first tokens, that a new one is
nested in the last one or around it, and that attributes go to the last one.

* `ElementTree.Builder.Change`, `ElementTree.Builder.change_step`: what a token does;
* `ElementTree.Builder.Ordered`: the order of elements, open elements and attributes;
* `ElementTree.Builder.Ordered.change`, `ElementTree.Builder.Ordered.steps`: a token
  keeps it, and so do all tokens of a list;
* `ElementTree.ordered_run`: the order of the elements of any list of tokens.
-/

namespace PugLint

namespace ElementTree.Builder

/-! ### What a token does -/

/-- The forest after the tokens from number `i` on, without closing what they leave
    open. -/
def steps (b : Builder) (i : Nat) : List TokenKind → Builder
  | [] => b
  | kind :: kinds => steps (b.step i kind) (i + 1) kinds

theorem steps_append (b : Builder) (i : Nat) (kinds others : List TokenKind) :
    b.steps i (kinds ++ others) = (b.steps i kinds).steps (i + kinds.length) others := by
  induction kinds generalizing b i with
  | nil => rfl
  | cons kind kinds ih =>
    rw [List.cons_append, steps, steps, ih, List.length_cons, Nat.add_right_comm, Nat.add_assoc]

theorem run_eq_closeTo (b : Builder) (i : Nat) (kinds : List TokenKind) :
    b.run i kinds = (b.steps i kinds).closeTo 0 (i + kinds.length) := by
  induction kinds generalizing b i with
  | nil => rfl
  | cons kind kinds ih =>
    rw [run, steps, ih, List.length_cons, Nat.add_right_comm, Nat.add_assoc]

theorem run_append (b : Builder) (i : Nat) (kinds others : List TokenKind) :
    b.run i (kinds ++ others) = (b.steps i kinds).run (i + kinds.length) others := by
  rw [run_eq_closeTo, run_eq_closeTo, steps_append, List.length_append, Nat.add_assoc]

/-- An element with a given number after some elements have been closed at a token. -/
def ended (closed : List (Nat × Nat)) (token id : Nat) (element : Element) : Element :=
  { element with endToken := if id ∈ closed.map Prod.fst then token else element.endToken }

/-- An element with one more attribute. -/
def withAttribute (i : Nat) (element : Element) : Element :=
  { element with attributes := element.attributes ++ [i] }

/-- Some of the innermost open elements are closed at a token. -/
structure Closes (b : Builder) (token : Nat) (closed : List (Nat × Nat)) (c : Builder) :
    Prop where
  /-- The others stay open. -/
  stack : b.stack = closed ++ c.stack
  /-- The token is the end of the closed ones. -/
  nodes (id : Nat) : c.nodes[id]? = b.nodes[id]?.map (ended closed token id)

/-- What the token with a given number and kind does to the elements. -/
inductive Change (b : Builder) (i : Nat) : TokenKind → Builder → Prop where
  /-- It opens an element. -/
  | opens {kind : TokenKind} (name : String) (written : ElementKind) (tagToken : Option Nat) :
      Change b i kind (b.openElement i name written tagToken)
  /-- It is an attribute of the element of the line. -/
  | adds {kind : TokenKind} {id : Nat} (hcurrent : b.current = some id) :
      Change b i kind (({ b with nodes := b.nodes.modify id (withAttribute i) }).own (some id))
  /-- It starts a line, or it is the end of the template. Then the element of the
      line stays, though it is closed. -/
  | closes {kind : TokenKind} {closed : List (Nat × Nat)} {c : Builder}
      (h : Closes b i closed c) (howners : c.owners = b.owners.push c.innermost)
      (hcurrent : c.current = none ∨ kind = .eos ∧ c.stack = [] ∧ c.current = b.current) :
      Change b i kind c
  /-- It belongs to the element at hand. -/
  | stays {kind : TokenKind} {c : Builder} (hnodes : c.nodes = b.nodes)
      (hstack : c.stack = b.stack) (hcurrent : c.current = b.current)
      (howners : c.owners = b.owners.push b.currentOwner) : Change b i kind c

theorem exists_closeFrom (nodes : Array Element) (level token : Nat) (stack : List (Nat × Nat)) :
    ∃ closed, stack = closed ++ (closeFrom nodes level token stack).2 ∧
      ∀ id : Nat, (closeFrom nodes level token stack).1[id]? =
        nodes[id]?.map (ended closed token id) := by
  have hnone (nodes : Array Element) (id : Nat) :
      nodes[id]? = nodes[id]?.map (ended [] token id) := by
    cases nodes[id]? <;> rfl
  induction stack generalizing nodes with
  | nil => exact ⟨[], rfl, hnone nodes⟩
  | cons entry stack ih =>
    rw [closeFrom]
    split
    · exact ⟨[], rfl, hnone nodes⟩
    · obtain ⟨closed, hstack, hnodes⟩ := ih (nodes.modify entry.1 ({ · with endToken := token }))
      refine ⟨entry :: closed, congrArg (entry :: ·) hstack, fun id => ?_⟩
      rw [hnodes, Array.getElem?_modify]
      by_cases hid : entry.1 = id
      · rw [if_pos hid, Option.map_map]
        congr 1
        funext element
        simp [ended, hid]
      · rw [if_neg hid]
        congr 1
        funext element
        have hne : id ≠ entry.1 := Ne.symm hid
        simp only [ended, List.map_cons, List.mem_cons, hne, false_or]

theorem exists_closes (b : Builder) (level token : Nat) :
    ∃ closed, Closes b token closed (b.closeTo level token) := by
  obtain ⟨closed, hstack, hnodes⟩ := exists_closeFrom b.nodes level token b.stack
  exact ⟨closed, hstack, hnodes⟩

theorem closes_nil (b : Builder) (token : Nat) {c : Builder} (hnodes : c.nodes = b.nodes)
    (hstack : c.stack = b.stack) : Closes b token [] c where
  stack := hstack.symm
  nodes id := by
    rw [hnodes]
    cases b.nodes[id]? <;> rfl

theorem stack_closeTo_zero (b : Builder) (token : Nat) : (b.closeTo 0 token).stack = [] := by
  have hempty (nodes : Array Element) (stack : List (Nat × Nat)) :
      (closeFrom nodes 0 token stack).2 = [] := by
    induction stack generalizing nodes with
    | nil => rfl
    | cons entry stack ih => rw [closeFrom, if_neg (Nat.not_lt_zero _), ih]
  exact hempty b.nodes b.stack

/-- The elements closed by a change of the level, which starts a line. -/
theorem change_newLine (b : Builder) (i level closeLevel : Nat) (kind : TokenKind) :
    Change b i kind ((({ b with level }).closeTo closeLevel i).newLine) := by
  obtain ⟨closed, hstack, hnodes⟩ := exists_closes { b with level } closeLevel i
  exact .closes ⟨hstack, hnodes⟩ rfl (.inl rfl)

/-- Every token makes one of the changes. -/
theorem change_step (b : Builder) (i : Nat) (kind : TokenKind) :
    Change b i kind (b.step i kind) := by
  unfold step
  split
  case h_1 =>
    split
    · exact .stays rfl rfl rfl rfl
    · exact change_newLine b i b.level b.level _
  case h_2 => exact .closes (closes_nil b i rfl rfl) rfl (.inl rfl)
  case h_3 => exact change_newLine b i (b.level - 1) (b.level - 1) _
  case h_4 =>
    obtain ⟨closed, hstack, hnodes⟩ := exists_closes b 0 i
    have hempty := stack_closeTo_zero b i
    refine .closes ⟨hstack, hnodes⟩ ?_ (.inr ⟨rfl, hempty, rfl⟩)
    rw [innermost, show ((b.closeTo 0 i).own none).stack = [] from hempty]
    rfl
  case h_5 | h_6 => exact .opens ..
  case h_7 | h_8 =>
    split
    · exact .opens ..
    · exact .stays rfl rfl rfl rfl
  case h_12 name value escaped =>
    cases hcurrent : b.current with
    | none => exact .stays rfl rfl hcurrent.symm rfl
    | some id =>
      have howner : b.currentOwner = some id := by
        rw [currentOwner, hcurrent, Option.some_or]
      have hadds : Change b i (.attribute name value escaped) _ := .adds hcurrent
      rw [hcurrent] at hadds
      rw [howner]
      exact hadds
  all_goals exact .stays rfl rfl rfl rfl

/-- An old element is left as it is when one is opened, apart from its links. -/
theorem openElement_cases {b : Builder} {i : Nat} {name : String} {written : ElementKind}
    {tagToken : Option Nat} {id : Nat} {element : Element}
    (h : (b.openElement i name written tagToken).nodes[id]? = some element) :
    (∃ old, b.nodes[id]? = some old ∧ element.token = old.token ∧
      element.endToken = old.endToken ∧ element.attributes = old.attributes) ∨
    (id = b.nodes.size ∧ element.token = i ∧ element.endToken = i + 1 ∧
      element.attributes = []) := by
  rw [nodes_openElement, getElem?_linkChild, getElem?_linkNext, Array.getElem?_push,
    Option.map_map, Option.map_eq_some_iff] at h
  obtain ⟨old, hold, rfl⟩ := h
  split at hold
  · rename_i hid
    cases hold
    exact .inr ⟨hid, rfl, rfl, rfl⟩
  · exact .inl ⟨old, hold, rfl, rfl, rfl⟩

theorem parentsOf_openElement (b : Builder) (i : Nat) (name : String) (written : ElementKind)
    (tagToken : Option Nat) :
    parentsOf (b.openElement i name written tagToken).nodes = parentsOf b.nodes ++ [b.parent] :=
  map_openElement (fun _ _ => rfl) (fun _ _ _ => rfl) ..

theorem size_openElement (b : Builder) (i : Nat) (name : String) (written : ElementKind)
    (tagToken : Option Nat) :
    (b.openElement i name written tagToken).nodes.size = b.nodes.size + 1 := by
  rw [← length_parentsOf, parentsOf_openElement, List.length_append, length_parentsOf]
  rfl

/-- An attribute is added to one element. -/
theorem modify_withAttribute_cases {nodes : Array Element} {target i id : Nat}
    {element : Element} (h : (nodes.modify target (withAttribute i))[id]? = some element) :
    ∃ old, nodes[id]? = some old ∧ element.token = old.token ∧
      ∀ j ∈ element.attributes, j ∈ old.attributes ∨ id = target ∧ j = i := by
  rw [Array.getElem?_modify] at h
  split at h
  · rename_i htarget
    obtain ⟨old, hold, rfl⟩ := Option.map_eq_some_iff.1 h
    refine ⟨old, hold, rfl, fun j hj => ?_⟩
    exact (List.mem_append.1 hj).imp_right fun hj => ⟨htarget.symm, List.mem_singleton.1 hj⟩
  · exact ⟨element, h, rfl, fun j => .inl⟩

/-- Every token gets an owner. -/
theorem size_owners_step (b : Builder) (i : Nat) (kind : TokenKind) :
    (b.step i kind).owners.size = b.owners.size + 1 := by
  have hchange := change_step b i kind
  generalize b.step i kind = c at hchange
  cases hchange with
  | opens | adds => exact Array.size_push _
  | closes _ howners => rw [howners, Array.size_push]
  | stays _ _ _ howners => rw [howners, Array.size_push]

section Closes

variable {b c : Builder} {token : Nat} {closed : List (Nat × Nat)}

theorem Closes.getElem?_cases (h : Closes b token closed c) {id : Nat} {element : Element}
    (hid : c.nodes[id]? = some element) :
    ∃ old, b.nodes[id]? = some old ∧ element.token = old.token ∧
      element.attributes = old.attributes ∧
      element.endToken = if id ∈ closed.map Prod.fst then token else old.endToken := by
  rw [h.nodes, Option.map_eq_some_iff] at hid
  obtain ⟨old, hold, rfl⟩ := hid
  exact ⟨old, hold, rfl, rfl, rfl⟩

theorem Closes.parentsOf_eq (h : Closes b token closed c) :
    parentsOf c.nodes = parentsOf b.nodes := by
  refine List.ext_getElem? fun id => ?_
  rw [getElem?_parentsOf, getElem?_parentsOf, h.nodes, Option.map_map]
  rfl

end Closes

/-! ### Order -/

/-- The elements are in the order of their first tokens, each nested in the one in
    front or around it; the open elements are nested in each other, and around the
    last one; attributes go to the last element. -/
structure Ordered (b : Builder) : Prop where
  /-- Parents and children. -/
  preorder : InPreorder (parentsOf b.nodes)
  /-- The open elements are the last one or around it. -/
  around : ∀ entry ∈ b.stack, AroundLast (parentsOf b.nodes) entry.1
  /-- The open elements are nested in each other. -/
  nested : b.stack.Pairwise fun inner outer => IsAncestor (parentsOf b.nodes) outer.1 inner.1
  /-- The element of the line is the last one, and open unless all are closed. -/
  current : ∀ id ∈ b.current, id + 1 = b.nodes.size ∧ (b.stack = [] ∨ b.innermost = some id)
  /-- The first tokens. -/
  token_lt {id : Nat} {element : Element} (h : b.nodes[id]? = some element) :
    element.token < b.owners.size
  /-- The order of the first tokens. -/
  increasing {i j : Nat} {x y : Element} (hi : b.nodes[i]? = some x) (hj : b.nodes[j]? = some y)
    (hij : i < j) : x.token < y.token
  /-- Attributes stand between their element and the next one. -/
  attributes {id : Nat} {element : Element} (h : b.nodes[id]? = some element) :
    ∀ i ∈ element.attributes, element.token < i ∧ i < b.owners.size ∧
      ∀ other behind, b.nodes[other]? = some behind → id < other → i < behind.token

namespace Ordered

variable {b c : Builder}

theorem start : Builder.start.Ordered where
  preorder := InPreorder.nil
  around := nofun
  nested := .nil
  current := nofun
  token_lt h := nomatch h
  increasing h := nomatch h
  attributes h := nomatch h

/-- A new element is nested in the innermost open element. -/
theorem parent_eq_innermost (h : b.Ordered) (hne : b.stack ≠ []) : b.parent = b.innermost := by
  rw [parent]
  split
  · cases hcurrent : b.current with
    | none => rw [currentOwner, hcurrent, Option.none_or]
    | some id =>
      have hinnermost := (h.current id hcurrent).2.resolve_left hne
      rw [currentOwner, hcurrent, hinnermost, Option.some_or]
  · rfl

theorem aroundLast_parent (h : b.Ordered) : ∀ p ∈ b.parent, AroundLast (parentsOf b.nodes) p := by
  have hinnermost : ∀ p ∈ b.innermost, AroundLast (parentsOf b.nodes) p := by
    intro p hp
    obtain ⟨entry, hentry, rfl⟩ := Option.map_eq_some_iff.1 hp
    exact h.around entry (List.mem_of_head? hentry)
  intro p hp
  rw [parent] at hp
  split at hp
  · rcases Option.or_eq_some_iff.1 hp with hcurrent | ⟨_, hp⟩
    · refine .inl ?_
      rw [length_parentsOf]
      exact (h.current p hcurrent).1
    · exact hinnermost p hp
  · exact hinnermost p hp

/-- A new element is nested in all open elements. -/
theorem isAncestor_new (h : b.Ordered) {entry : Nat × Nat} (hentry : entry ∈ b.stack) :
    IsAncestor (parentsOf b.nodes ++ [b.parent]) entry.1 b.nodes.size := by
  have hlt : ∀ p ∈ b.parent, p < (parentsOf b.nodes).length := fun p hp =>
    h.preorder.lt_length_of_aroundLast (h.aroundLast_parent p hp)
  have hparent := h.parent_eq_innermost (List.ne_nil_of_mem hentry)
  have hnested := h.nested
  rw [← length_parentsOf, h.preorder.isAncestor_concat_length hlt, hparent, innermost]
  cases hstack : b.stack with
  | nil =>
    rw [hstack] at hentry
    exact absurd hentry List.not_mem_nil
  | cons inner outer =>
    rw [hstack] at hentry hnested
    refine ⟨inner.1, rfl, ?_⟩
    rcases List.mem_cons.1 hentry with rfl | hentry
    · exact .inl rfl
    · exact .inr ((List.pairwise_cons.1 hnested).1 entry hentry)

theorem openElement (h : b.Ordered) (name : String) (written : ElementKind)
    (tagToken : Option Nat) : (b.openElement b.owners.size name written tagToken).Ordered := by
  have hparents := parentsOf_openElement b b.owners.size name written tagToken
  have hsize := size_openElement b b.owners.size name written tagToken
  have howners : (b.openElement b.owners.size name written tagToken).owners.size =
      b.owners.size + 1 := Array.size_push _
  have hnew : AroundLast (parentsOf b.nodes ++ [b.parent]) b.nodes.size :=
    .inl (by rw [List.length_append, length_parentsOf, List.length_singleton])
  refine ⟨?_, ?_, ?_, ?_, ?_, ?_, ?_⟩
  · rw [hparents]
    exact h.preorder.concat h.aroundLast_parent
  · intro entry hentry
    rw [hparents]
    rcases List.mem_cons.1 hentry with rfl | hentry
    · exact hnew
    · exact .trans (h.isAncestor_new hentry) hnew
  · rw [hparents]
    refine List.pairwise_cons.2 ⟨fun entry => h.isAncestor_new, ?_⟩
    exact h.nested.imp isAncestor_concat
  · intro id hid
    cases hid
    exact ⟨hsize.symm, .inr rfl⟩
  · intro id element hid
    rw [howners]
    rcases openElement_cases hid with ⟨old, hold, htoken, _⟩ | ⟨_, htoken, _⟩
    · exact htoken ▸ Nat.lt_succ_of_lt (h.token_lt hold)
    · exact htoken ▸ Nat.lt_succ_self _
  · intro i j x y hi hj hij
    have hjlt := (Array.getElem?_eq_some_iff.1 hj).1
    rcases openElement_cases hi with ⟨old, hold, hx, _⟩ | ⟨rfl, _⟩
    · rcases openElement_cases hj with ⟨old', hold', hy, _⟩ | ⟨_, hy, _⟩
      · exact hx ▸ hy ▸ h.increasing hold hold' hij
      · exact hx ▸ hy ▸ h.token_lt hold
    · omega
  · intro id element hid i hi
    rw [howners]
    rcases openElement_cases hid with ⟨old, hold, htoken, _, hattributes⟩ | ⟨_, _, _, hattributes⟩
    · obtain ⟨htoken', hlt, hbehind⟩ := h.attributes hold i (hattributes ▸ hi)
      refine ⟨htoken ▸ htoken', Nat.lt_succ_of_lt hlt, fun other behind hother hid => ?_⟩
      rcases openElement_cases hother with ⟨old', hold', hy, _⟩ | ⟨_, hy, _⟩
      · exact hy ▸ hbehind other old' hold' hid
      · exact hy ▸ hlt
    · rw [hattributes] at hi
      exact absurd hi List.not_mem_nil

/-- An attribute of the last element. -/
theorem adds (h : b.Ordered) {id : Nat} (hcurrent : b.current = some id) :
    (({ b with nodes := b.nodes.modify id (withAttribute b.owners.size) }).own
      (some id)).Ordered := by
  obtain ⟨hlast, hinnermost⟩ := h.current id hcurrent
  have hparents : parentsOf (b.nodes.modify id (withAttribute b.owners.size)) =
      parentsOf b.nodes := map_modify _ _ fun _ => rfl
  have howners : (b.owners.push (some id)).size = b.owners.size + 1 := Array.size_push _
  refine ⟨hparents ▸ h.preorder, hparents ▸ h.around, hparents ▸ h.nested, ?_, ?_, ?_, ?_⟩
  · intro other hother
    obtain rfl : id = other := Option.some.inj (hcurrent.symm.trans hother)
    exact ⟨hlast.trans Array.size_modify.symm, hinnermost⟩
  · intro other element ho
    obtain ⟨old, hold, htoken, _⟩ := modify_withAttribute_cases ho
    refine Nat.lt_of_lt_of_eq (Nat.lt_succ_of_lt ?_) howners.symm
    exact htoken ▸ h.token_lt hold
  · intro i j x y hi hj hij
    obtain ⟨old, hold, hx, _⟩ := modify_withAttribute_cases hi
    obtain ⟨old', hold', hy, _⟩ := modify_withAttribute_cases hj
    rw [hx, hy]
    exact h.increasing hold hold' hij
  · intro other element ho i hi
    obtain ⟨old, hold, htoken, hattributes⟩ := modify_withAttribute_cases ho
    change _ ∧ i < (b.owners.push (some id)).size ∧ _
    rw [howners, htoken]
    rcases hattributes i hi with hi | ⟨rfl, rfl⟩
    · obtain ⟨htoken, hlt, hbehind⟩ := h.attributes hold i hi
      refine ⟨htoken, Nat.lt_succ_of_lt hlt, fun further behind hfurther hlt => ?_⟩
      obtain ⟨old', hold', htoken', _⟩ := modify_withAttribute_cases hfurther
      exact htoken' ▸ hbehind further old' hold' hlt
    · -- The new attribute stands behind all elements, and its element is the last.
      refine ⟨h.token_lt hold, Nat.lt_succ_self _, fun further behind hfurther hlt => ?_⟩
      obtain ⟨old', hold', _⟩ := modify_withAttribute_cases hfurther
      have := (Array.getElem?_eq_some_iff.1 hold').1
      omega

theorem closes (h : b.Ordered) {token : Nat} {closed : List (Nat × Nat)}
    (hcloses : Closes b token closed c) (howners : b.owners.size ≤ c.owners.size)
    (hcurrent : c.current = none ∨ c.stack = [] ∧ c.current = b.current) : c.Ordered := by
  have hparents := hcloses.parentsOf_eq
  have hsize : c.nodes.size = b.nodes.size := by
    rw [← length_parentsOf, hparents, length_parentsOf]
  refine ⟨hparents ▸ h.preorder, ?_, ?_, ?_, ?_, ?_, ?_⟩
  · intro entry hentry
    rw [hparents]
    exact h.around entry (hcloses.stack ▸ List.mem_append_right _ hentry)
  · have hnested := h.nested
    rw [hcloses.stack, ← hparents] at hnested
    exact (List.pairwise_append.1 hnested).2.1
  · intro id hid
    rcases hcurrent with hnone | ⟨hempty, hsame⟩
    · rw [hnone] at hid
      cases hid
    · rw [hsize]
      exact ⟨(h.current id (hsame ▸ hid)).1, .inl hempty⟩
  · intro id element hid
    obtain ⟨old, hold, htoken, _⟩ := hcloses.getElem?_cases hid
    exact htoken ▸ Nat.lt_of_lt_of_le (h.token_lt hold) howners
  · intro i j x y hi hj hij
    obtain ⟨old, hold, hx, _⟩ := hcloses.getElem?_cases hi
    obtain ⟨old', hold', hy, _⟩ := hcloses.getElem?_cases hj
    exact hx ▸ hy ▸ h.increasing hold hold' hij
  · intro id element hid i hi
    obtain ⟨old, hold, htoken, hattributes, _⟩ := hcloses.getElem?_cases hid
    obtain ⟨htoken', hlt, hbehind⟩ := h.attributes hold i (hattributes ▸ hi)
    refine ⟨htoken ▸ htoken', Nat.lt_of_lt_of_le hlt howners, fun other behind hother hid => ?_⟩
    obtain ⟨old', hold', hy, _⟩ := hcloses.getElem?_cases hother
    exact hy ▸ hbehind other old' hold' hid

/-- Every token keeps the order. -/
theorem change (h : b.Ordered) {kind : TokenKind} (hchange : Change b b.owners.size kind c) :
    c.Ordered := by
  cases hchange with
  | opens name written tagToken => exact h.openElement name written tagToken
  | adds hcurrent => exact h.adds hcurrent
  | closes hcloses howners hcurrent =>
    refine h.closes hcloses ?_ (hcurrent.imp_right And.right)
    rw [howners, Array.size_push]
    exact Nat.le_succ _
  | stays hnodes hstack hcurrent howners =>
    have hle : b.owners.size ≤ c.owners.size := by
      rw [howners, Array.size_push]
      exact Nat.le_succ _
    have hinnermost : c.innermost = b.innermost := by rw [innermost, hstack, innermost]
    refine ⟨?_, ?_, ?_, ?_, ?_, ?_, ?_⟩
    · exact hnodes ▸ h.preorder
    · exact hnodes ▸ hstack ▸ h.around
    · exact hnodes ▸ hstack ▸ h.nested
    · rw [hcurrent, hnodes, hstack, hinnermost]
      exact h.current
    · exact fun hid => Nat.lt_of_lt_of_le (h.token_lt (hnodes ▸ hid)) hle
    · exact fun hi hj => h.increasing (hnodes ▸ hi) (hnodes ▸ hj)
    · rw [hnodes]
      intro id element hid i hi
      obtain ⟨htoken, hlt, hbehind⟩ := h.attributes hid i hi
      exact ⟨htoken, Nat.lt_of_lt_of_le hlt hle, hbehind⟩

/-- All tokens of a list keep the order. -/
theorem steps (h : b.Ordered) (kinds : List TokenKind) :
    (b.steps b.owners.size kinds).Ordered ∧
      (b.steps b.owners.size kinds).owners.size = b.owners.size + kinds.length := by
  induction kinds generalizing b with
  | nil => exact ⟨h, rfl⟩
  | cons kind kinds ih =>
    have hsize := size_owners_step b b.owners.size kind
    obtain ⟨hordered, howners⟩ := ih (h.change (change_step b b.owners.size kind))
    rw [hsize] at hordered howners
    rw [Builder.steps, List.length_cons, Nat.add_comm kinds.length, ← Nat.add_assoc]
    exact ⟨hordered, howners⟩

end Ordered

/-- The builder after all tokens of a list, and the number of their owners. -/
theorem ordered_steps (kinds : List TokenKind) :
    (start.steps 0 kinds).Ordered ∧ (start.steps 0 kinds).owners.size = kinds.length := by
  obtain ⟨hordered, howners⟩ := Ordered.start.steps kinds
  exact ⟨hordered, howners.trans (Nat.zero_add _)⟩

end ElementTree.Builder

/-- The elements of any list of tokens are in order. -/
theorem ElementTree.ordered_run (kinds : List TokenKind) :
    (Builder.start.run 0 kinds).Ordered := by
  rw [Builder.run_eq_closeTo]
  obtain ⟨closed, hcloses⟩ := (Builder.start.steps 0 kinds).exists_closes 0 (0 + kinds.length)
  obtain ⟨hordered, _⟩ := Builder.ordered_steps kinds
  exact hordered.closes hcloses (Nat.le_refl _)
    (.inr ⟨Builder.stack_closeTo_zero _ _, rfl⟩)

end PugLint
