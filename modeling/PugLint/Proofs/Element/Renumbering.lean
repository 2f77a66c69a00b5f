import PugLint.Proofs.Element.Attributes
import PugLint.Proofs.Token.Bracketing

/-!
# Elements whose tokens have other numbers

Elements know their tokens by number. If a list of attributes is closed and opened again, there are
two more tokens, and those behind have greater numbers. The elements are the same ones up to the
numbers of their tokens, and each token has the same owner.

* `Element.renumber`: an element with other numbers;
* `ElementTree.Builder.step_renumber`, `ElementTree.Builder.steps_renumber`: elements are built
  alike from tokens with other numbers;
* `ElementTree.nodes_parted`, `ElementTree.owners_parted`: elements and owners where a list is in
  two parts.
-/

namespace PugLint

/-- An element whose tokens have other numbers. -/
def Element.renumber (number : Nat → Nat) (element : Element) : Element :=
  { element with
    token := number element.token
    tagToken := element.tagToken.map number
    attributes := element.attributes.map number
    endToken := number element.endToken }

theorem modify_map_of_comm {α : Type} {f g h : α → α} (hcomm : ∀ a, g (f a) = f (h a))
    (as : Array α) (i : Nat) : (as.map f).modify i g = (as.modify i h).map f := by
  apply Array.ext_getElem?
  intro j
  simp only [Array.getElem?_modify, Array.getElem?_map]
  split
  · rw [Option.map_map, Option.map_map]
    congr 1
    funext a
    exact hcomm a
  · rfl

namespace ElementTree.Builder

variable {number : Nat → Nat}

/-- The forest under construction with other numbers of tokens. -/
def renumber (number : Nat → Nat) (b : Builder) : Builder :=
  { b with nodes := b.nodes.map (Element.renumber number) }

theorem renumber_start : start.renumber number = start := by
  rw [renumber, start, Array.map_empty]

theorem closeFrom_renumber (nodes : Array Element) (level token : Nat) (stack : List (Nat × Nat)) :
    closeFrom (nodes.map (Element.renumber number)) level (number token) stack =
      ((closeFrom nodes level token stack).1.map (Element.renumber number),
        (closeFrom nodes level token stack).2) := by
  induction stack generalizing nodes with
  | nil => rfl
  | cons entry stack ih =>
    rw [closeFrom, closeFrom]
    split
    · rfl
    · have hmodify : (nodes.map (Element.renumber number)).modify entry.1
            ({ · with endToken := number token }) =
          (nodes.modify entry.1 ({ · with endToken := token })).map (Element.renumber number) := by
        apply modify_map_of_comm
        intro element
        rfl
      rw [hmodify, ih]

theorem closeTo_renumber (b : Builder) (level token : Nat) :
    (b.renumber number).closeTo level (number token) = (b.closeTo level token).renumber number := by
  simp only [closeTo, renumber, closeFrom_renumber]

theorem lastRoot?_renumber (nodes : Array Element) :
    lastRoot? (nodes.map (Element.renumber number)) = lastRoot? nodes := by
  have hparent (id : Nat) : (nodes.map (Element.renumber number))[id]?.bind Element.parent =
      nodes[id]?.bind Element.parent := by
    rw [Array.getElem?_map, Option.bind_map]
    rfl
  simp only [lastRoot?, hparent, Array.size_map]

theorem previous_renumber (b : Builder) : (b.renumber number).previous = b.previous := by
  have hparent : (b.renumber number).parent = b.parent := rfl
  rw [previous, previous, hparent]
  cases b.parent with
  | none => exact lastRoot?_renumber b.nodes
  | some p =>
    simp only [renumber, Array.getElem?_map, Option.bind_map]
    rfl

theorem depth_renumber (b : Builder) : (b.renumber number).depth = b.depth := by
  have hparent : (b.renumber number).parent = b.parent := rfl
  rw [depth, depth, hparent]
  cases b.parent with
  | none => rfl
  | some p =>
    simp only [renumber, Array.getElem?_map, Option.map_map]
    rfl

theorem linkNext_renumber (previous : Option Nat) (new : Nat) (nodes : Array Element) :
    linkNext previous new (nodes.map (Element.renumber number)) =
      (linkNext previous new nodes).map (Element.renumber number) := by
  cases previous with
  | none => rfl
  | some p =>
    rw [linkNext, linkNext]
    apply modify_map_of_comm
    intro element
    rfl

theorem linkChild_renumber (parent previous : Option Nat) (new : Nat) (nodes : Array Element) :
    linkChild parent previous new (nodes.map (Element.renumber number)) =
      (linkChild parent previous new nodes).map (Element.renumber number) := by
  cases parent with
  | none => rfl
  | some p =>
    rw [linkChild, linkChild]
    apply modify_map_of_comm
    intro element
    rfl

theorem openElement_renumber (b : Builder) {token : Nat}
    (hnext : number (token + 1) = number token + 1) (name : String) (kind : ElementKind)
    (tagToken : Option Nat) :
    (b.renumber number).openElement (number token) name kind (tagToken.map number) =
      (b.openElement token name kind tagToken).renumber number := by
  have hsize : (b.renumber number).nodes.size = b.nodes.size := Array.size_map
  have hnodes : ((b.renumber number).openElement (number token) name kind
      (tagToken.map number)).nodes =
        (b.openElement token name kind tagToken).nodes.map (Element.renumber number) := by
    rw [nodes_openElement, nodes_openElement, ← linkChild_renumber, ← linkNext_renumber,
      Array.map_push, Element.renumber, hnext, previous_renumber, depth_renumber, hsize]
    rfl
  have heq : (b.renumber number).openElement (number token) name kind (tagToken.map number) =
      { b.openElement token name kind tagToken with
        nodes := ((b.renumber number).openElement (number token) name kind
          (tagToken.map number)).nodes } := by
    simp only [openElement, own, hsize]
    rfl
  rw [heq, hnodes]
  rfl

/-- A token with another number does the same. -/
theorem step_renumber (b : Builder) {i : Nat} {kind : TokenKind}
    (hnext : kind.attribute? = none → number (i + 1) = number i + 1) :
    (b.renumber number).step (number i) kind = (b.step i kind).renumber number := by
  cases kind with
  | newline =>
    simp only [step]
    change (if b.inRawText then _ else _) = renumber number (if _ then _ else _)
    split
    · rfl
    · exact congrArg newLine (closeTo_renumber b b.level i)
  | indent width => rfl
  | outdent =>
    exact congrArg newLine (closeTo_renumber { b with level := b.level - 1 } (b.level - 1) i)
  | eos => exact congrArg (own · none) (closeTo_renumber b 0 i)
  | tag name => exact openElement_renumber b (hnext rfl) name .tag (some i)
  | call name => exact openElement_renumber b (hnext rfl) name .mixin none
  | classLiteral name | idLiteral name =>
    change (if b.lineStart || b.afterColon then _ else _) = renumber number (if _ then _ else _)
    split
    · exact openElement_renumber b (hnext rfl) "div" .implicit none
    · rfl
  | «attribute» name value escaped =>
    have hcurrent' : (b.renumber number).current = b.current := rfl
    cases hcurrent : b.current with
    | none =>
      simp only [step, hcurrent', hcurrent]
      rfl
    | some id =>
      have hnodes : (b.renumber number).nodes.modify id (withAttribute (number i)) =
          (b.nodes.modify id (withAttribute i)).map (Element.renumber number) := by
        apply modify_map_of_comm
        intro element
        simp only [withAttribute, Element.renumber, List.map_append, List.map_cons, List.map_nil]
      simp only [step, hcurrent', hcurrent]
      exact congrArg (fun nodes => ({ b with nodes, current := some id }).own b.currentOwner)
        hnodes
  | _ => rfl

/-- Tokens with other numbers that follow each other build the same elements. -/
theorem steps_renumber (b : Builder) {i j : Nat} {kinds : List TokenKind}
    (hnumber : ∀ m < kinds.length, number (i + m) = j + m)
    (hnext : ∀ m kind, kinds[m]? = some kind → kind.attribute? = none →
      number (i + m + 1) = j + m + 1) :
    (b.renumber number).steps j kinds = (b.steps i kinds).renumber number := by
  induction kinds generalizing b i j with
  | nil => rfl
  | cons kind kinds ih =>
    have hi : number i = j := hnumber 0 (Nat.zero_lt_succ _)
    have hstep : (b.renumber number).step j kind = (b.step i kind).renumber number := by
      rw [← hi]
      exact b.step_renumber fun hkind => hi ▸ hnext 0 kind rfl hkind
    rw [steps, steps, hstep]
    refine ih _ (fun m hm => ?_) fun m other hother hkind => ?_
    · rw [Nat.add_assoc, Nat.add_comm 1, hnumber (m + 1) (Nat.succ_lt_succ hm)]
      omega
    · have hmore := hnext (m + 1) other hother hkind
      rw [Nat.add_right_comm i, Nat.add_right_comm j]
      exact hmore

/-! ### Owners -/

/-- What a token does not depend on the owners of those in front. -/
theorem step_owners (b : Builder) (i : Nat) (kind : TokenKind) :
    ∃ owner, ∀ owners : Array (Option Nat),
      ({ b with owners }).step i kind = { b.step i kind with owners := owners.push owner } := by
  cases kind with
  | newline =>
    by_cases hraw : b.inRawText = true
    · refine ⟨b.currentOwner, fun owners => ?_⟩
      simp only [step, if_pos hraw]
      rfl
    · refine ⟨(b.closeTo b.level i).innermost, fun owners => ?_⟩
      simp only [step, if_neg hraw]
      rfl
  | classLiteral | idLiteral =>
    by_cases hopens : (b.lineStart || b.afterColon) = true
    · refine ⟨some b.nodes.size, fun owners => ?_⟩
      simp only [step, if_pos hopens]
      rfl
    · refine ⟨b.currentOwner, fun owners => ?_⟩
      simp only [step, if_neg hopens]
      rfl
  | indent => exact ⟨b.innermost, fun _ => rfl⟩
  | outdent =>
    exact ⟨(({ b with level := b.level - 1 }).closeTo (b.level - 1) i).innermost, fun _ => rfl⟩
  | eos => exact ⟨none, fun _ => rfl⟩
  | tag | call => exact ⟨some b.nodes.size, fun _ => rfl⟩
  | _ => exact ⟨b.currentOwner, fun _ => rfl⟩

theorem steps_owners (b : Builder) (i : Nat) (kinds : List TokenKind) :
    ∃ added : Array (Option Nat), ∀ owners : Array (Option Nat),
      ({ b with owners }).steps i kinds =
        { b.steps i kinds with owners := owners ++ added } := by
  induction kinds generalizing b i with
  | nil => exact ⟨#[], fun owners => by rw [Array.append_empty]; rfl⟩
  | cons kind kinds ih =>
    obtain ⟨owner, hstep⟩ := b.step_owners i kind
    obtain ⟨added, hsteps⟩ := ih (b.step i kind) (i + 1)
    refine ⟨#[owner] ++ added, fun owners => ?_⟩
    rw [steps, hstep, hsteps, ← Array.append_assoc, Array.append_singleton]
    rfl

theorem size_owners_steps (b : Builder) (i : Nat) (kinds : List TokenKind) :
    (b.steps i kinds).owners.size = b.owners.size + kinds.length := by
  induction kinds generalizing b i with
  | nil => rfl
  | cons kind kinds ih =>
    rw [steps, ih, size_owners_step, List.length_cons]
    omega

/-- The attributes of a list are owned by the element of the line. -/
theorem steps_attributes {kinds : List TokenKind}
    (hkinds : ∀ kind ∈ kinds, kind.attribute?.isSome = true) (b : Builder) (i : Nat) :
    (b.steps i kinds).currentOwner = b.currentOwner ∧
      (b.steps i kinds).lineStart = b.lineStart ∧
      (b.steps i kinds).owners = b.owners ++ Array.replicate kinds.length b.currentOwner := by
  induction kinds generalizing b i with
  | nil => exact ⟨rfl, rfl, by rw [List.length_nil, Array.replicate_zero, Array.append_empty]; rfl⟩
  | cons kind kinds ih =>
    obtain ⟨hkind, hothers⟩ := List.forall_mem_cons.1 hkinds
    obtain ⟨name, value, escaped, rfl⟩ := TokenKind.exists_eq_attribute hkind
    obtain ⟨howner, hline, howners⟩ := ih hothers (b.step i (.attribute name value escaped)) (i + 1)
    refine ⟨howner, hline, howners.trans ?_⟩
    have hpush : (b.step i (.attribute name value escaped)).owners = b.owners.push b.currentOwner :=
      rfl
    have howner : (b.step i (.attribute name value escaped)).currentOwner = b.currentOwner := rfl
    rw [hpush, howner]
    apply Array.toList_inj.1
    simp [List.replicate_succ]

end ElementTree.Builder

/-! ### Tokens of lists -/

/-- Whether a token is an attribute, or the start or the end of a list of them. -/
def TokenKind.isListed : TokenKind → Bool
  | .startAttributes | .attribute _ _ _ | .endAttributes => true
  | _ => false

theorem TokenKind.isListed_of_isSome {kind : TokenKind} (h : kind.attribute?.isSome = true) :
    kind.isListed = true := by
  obtain ⟨name, value, escaped, rfl⟩ := exists_eq_attribute h
  rfl

namespace ElementTree

/-- The tokens of lists are owned by the element of the line. -/
theorem owner?_of_isListed {kinds others : List TokenKind} {kind : TokenKind}
    (h : kind.isListed = true) :
    (ofKinds (kinds ++ kind :: others)).owner? kinds.length =
      (Builder.start.steps 0 kinds).currentOwner := by
  have hsize := Builder.size_owners_steps .start 0 kinds
  obtain ⟨added, hadded⟩ := ((Builder.start.steps 0 kinds).step kinds.length kind).steps_owners
    (kinds.length + 1) others
  change (Builder.run _ _ _).owners[_]?.join = _
  rw [Builder.run_append, Builder.run, Builder.run_eq_closeTo, Nat.zero_add]
  generalize Builder.start.steps 0 kinds = b at hsize hadded
  rw [Builder.start, Array.size_empty, Nat.zero_add] at hsize
  have hpush : (b.step kinds.length kind).owners = b.owners.push b.currentOwner := by
    cases kind with
    | startAttributes | endAttributes => rfl
    | «attribute» name value escaped => rfl
    | _ => cases h
  have howners : ((b.step kinds.length kind).steps (kinds.length + 1) others).owners =
      b.owners.push b.currentOwner ++ added := by
    rw [← hpush]
    exact congrArg Builder.owners (hadded (b.step kinds.length kind).owners)
  change ((b.step kinds.length kind).steps (kinds.length + 1) others).owners[_]?.join = _
  rw [howners, Array.getElem?_append_left (by rw [Array.size_push]; omega), ← hsize,
    Array.getElem?_push_size, Option.join_some]

namespace Builder

/-- A token starts no element if it is one of a list. -/
theorem token_of_step {b : Builder} {i id : Nat} {kind : TokenKind} {element : Element}
    (h : (b.step i kind).nodes[id]? = some element) :
    (∃ old, b.nodes[id]? = some old ∧ element.token = old.token) ∨
      (element.token = i ∧ kind.isListed = false) := by
  by_cases hkind : kind.isListed = true
  · refine .inl ?_
    cases kind with
    | startAttributes | endAttributes => exact ⟨element, h, rfl⟩
    | «attribute» name value escaped =>
      cases hcurrent : b.current with
      | none =>
        simp only [step, hcurrent] at h
        exact ⟨element, h, rfl⟩
      | some current =>
        simp only [step, hcurrent] at h
        change (b.nodes.modify current (withAttribute i))[id]? = some element at h
        rw [Array.getElem?_modify] at h
        split at h
        · obtain ⟨old, hold, rfl⟩ := Option.map_eq_some_iff.1 h
          exact ⟨old, hold, rfl⟩
        · exact ⟨element, h, rfl⟩
    | _ => cases hkind
  · have hchange := change_step b i kind
    generalize b.step i kind = c at hchange h
    cases hchange with
    | opens name written tagToken =>
      rcases openElement_cases h with ⟨old, hold, htoken, -⟩ | ⟨-, htoken, -⟩
      · exact .inl ⟨old, hold, htoken⟩
      · exact .inr ⟨htoken, Bool.eq_false_iff.2 hkind⟩
    | @adds current hcurrent =>
      change (b.nodes.modify current (withAttribute i))[id]? = some element at h
      rw [Array.getElem?_modify] at h
      split at h
      · obtain ⟨old, hold, rfl⟩ := Option.map_eq_some_iff.1 h
        exact .inl ⟨old, hold, rfl⟩
      · exact .inl ⟨element, h, rfl⟩
    | closes hcloses =>
      obtain ⟨old, hold, htoken, -⟩ := hcloses.getElem?_cases h
      exact .inl ⟨old, hold, htoken⟩
    | stays hnodes => exact .inl ⟨element, hnodes ▸ h, rfl⟩

theorem token_of_steps {b : Builder} {i id : Nat} {kinds : List TokenKind} {element : Element}
    (h : (b.steps i kinds).nodes[id]? = some element) :
    (∃ old, b.nodes[id]? = some old ∧ element.token = old.token) ∨
      ∃ m kind, element.token = i + m ∧ kinds[m]? = some kind ∧ kind.isListed = false := by
  induction kinds generalizing b i with
  | nil => exact .inl ⟨element, h, rfl⟩
  | cons kind kinds ih =>
    rcases ih h with ⟨old, hold, htoken⟩ | ⟨m, other, htoken, hother, hlisted⟩
    · rcases token_of_step hold with ⟨older, holder, htoken'⟩ | ⟨htoken', hlisted⟩
      · exact .inl ⟨older, holder, htoken.trans htoken'⟩
      · exact .inr ⟨0, kind, htoken.trans htoken', rfl, hlisted⟩
    · exact .inr ⟨m + 1, other, by omega, hother, hlisted⟩

end Builder

/-- No element starts at a token of a list. -/
theorem elementAt?_of_isListed {kinds : List TokenKind} {i : Nat} {kind : TokenKind}
    (hi : kinds[i]? = some kind) (hlisted : kind.isListed = true) :
    (ofKinds kinds).elementAt? i = none := by
  rw [Option.eq_none_iff_forall_ne_some]
  intro id hid
  obtain ⟨element, hnode, rfl⟩ := (consistent_ofKinds kinds).elementAt?.1 hid
  change (Builder.start.run 0 kinds).nodes[id]? = some element at hnode
  rw [Builder.run_eq_closeTo] at hnode
  obtain ⟨closed, hcloses⟩ := (Builder.start.steps 0 kinds).exists_closes 0 (0 + kinds.length)
  obtain ⟨old, hold, htoken, -⟩ := hcloses.getElem?_cases hnode
  rcases Builder.token_of_steps hold with ⟨_, hnone, -⟩ | ⟨m, other, hm, hother, hnot⟩
  · cases hnone
  · rw [htoken, hm, Nat.zero_add, hother] at hi
    cases hi
    rw [hlisted] at hnot
    cases hnot

end ElementTree

/-! ### A list in two parts -/

/-- The tokens in front of a place in a list of attributes, and those behind it. There is an
    attribute on both sides. -/
structure InList (front back : List TokenKind) : Prop where
  opening : ∃ before attributes last,
    front = before ++ .startAttributes :: (attributes ++ [last]) ∧
      ∀ kind ∈ attributes ++ [last], kind.attribute?.isSome = true
  closing : ∃ attributes rest, back = attributes ++ .endAttributes :: rest ∧
    ∀ kind ∈ attributes, kind.attribute?.isSome = true

/-- Tokens that follow each other as they may, up to an attribute of a list and from there on. -/
theorem Shape.Runs.inList {front back : List TokenKind} {last : TokenKind}
    (h : Runs .start (front ++ last :: back) .stop) (hlast : last.attribute?.isSome = true) :
    InList (front ++ [last]) back := by
  obtain ⟨s, t, hfront, hstep, hback⟩ := h.exists_split
  obtain ⟨name, value, escaped, rfl⟩ := TokenKind.exists_eq_attribute hlast
  have hs := hstep.mode_of_attribute
  have ht : t.mode = .list := by
    cases hstep with
    | plain hplain => cases hplain
    | listed => rfl
  obtain ⟨before, attributes, rfl, hattributes⟩ :=
    hfront.exists_startAttributes (by simp [State.start]) hs
  refine ⟨⟨before, attributes, _, List.append_assoc .., ?_⟩, hback.exists_endAttributes ht⟩
  exact List.forall_mem_append.2 ⟨hattributes, fun kind hkind => List.mem_singleton.1 hkind ▸ rfl⟩

/-- The number of a token where two more tokens stand behind the first `n`. -/
def skip (n i : Nat) : Nat :=
  if i < n then i else i + 2

theorem skip_inj {n i j : Nat} (h : skip n i = skip n j) : i = j := by
  rw [skip, skip] at h
  split at h <;> split at h <;> omega

open ElementTree.Builder in
/-- What is built where a list is in two parts. -/
theorem InList.run_parted {front back : List TokenKind} (h : InList front back) :
    ∃ added : Array (Option Nat),
      let b := start.steps 0 front
      (start.run 0 (front ++ back)).owners = b.owners ++ added ∧
      start.run 0 (front ++ .endAttributes :: .startAttributes :: back) =
        { (start.run 0 (front ++ back)).renumber (skip front.length) with
          owners := b.owners ++ #[b.currentOwner, b.currentOwner] ++ added } := by
  obtain ⟨before, attributes, last, rfl, hattributes⟩ := h.opening
  have hlast : last.attribute? ≠ none :=
    Option.isSome_iff_ne_none.1 (hattributes last (List.mem_append_right _ List.mem_cons_self))
  have hline : (start.steps 0 (before ++ .startAttributes :: (attributes ++ [last]))).lineStart =
      false := by
    rw [steps_append, steps]
    exact (steps_attributes hattributes _ _).2.1
  generalize hfront : before ++ .startAttributes :: (attributes ++ [last]) = front at hline ⊢
  have hsteps : (start.renumber (skip front.length)).steps 0 front =
      (start.steps 0 front).renumber (skip front.length) := by
    refine start.steps_renumber (fun m hm => ?_) fun m kind hkind hnone => ?_
    · rw [Nat.zero_add, skip, if_pos hm]
    · -- Only the last token is followed by another number.
      have hm := (List.getElem?_eq_some_iff.1 hkind).1
      have hne : m + 1 ≠ front.length := by
        intro heq
        rw [← hfront, ← List.cons_append, ← List.append_assoc] at hkind heq
        obtain rfl : m = (before ++ .startAttributes :: attributes).length := by
          rw [List.length_append, List.length_singleton] at heq
          exact Nat.succ.inj heq
        rw [List.getElem?_concat_length] at hkind
        exact hlast (Option.some.inj hkind ▸ hnone)
      rw [Nat.zero_add, skip, if_pos (by omega)]
  rw [renumber_start] at hsteps
  obtain ⟨added, hadded⟩ := (start.steps 0 front).steps_owners front.length back
  refine ⟨added, ?_, ?_⟩
  · rw [run_append, run_eq_closeTo, Nat.zero_add]
    exact congrArg owners (hadded (start.steps 0 front).owners)
  · rw [run_append, run_append, run, run, run_eq_closeTo, run_eq_closeTo, Nat.zero_add]
    generalize start.steps 0 front = b at hline hsteps hadded
    -- The two tokens between the parts have owners and do nothing else.
    have hbetween : (b.step front.length .endAttributes).step (front.length + 1) .startAttributes =
        { b with owners := b.owners ++ #[b.currentOwner, b.currentOwner] } := by
      change { b with lineStart := false, owners := _ } = _
      rw [← hline]
      rfl
    rw [hbetween]
    generalize b.owners ++ #[b.currentOwner, b.currentOwner] = owners
    have hback : (({ b with owners } : ElementTree.Builder).renumber (skip front.length)).steps
        (front.length + 1 + 1) back =
          (({ b with owners } : ElementTree.Builder).steps front.length back).renumber
            (skip front.length) := by
      refine steps_renumber _ (fun m _ => ?_) fun m _ _ _ => ?_
      · rw [skip, if_neg (by omega)]
        omega
      · rw [skip, if_neg (by omega)]
        omega
    have hself : ({ b with owners } : ElementTree.Builder).renumber (skip front.length) =
        { b with owners } :=
      congrArg (fun c : ElementTree.Builder => { c with owners }) hsteps.symm
    have hend : front.length + 1 + 1 + back.length =
        skip front.length (front.length + back.length) := by
      rw [skip, if_neg (by omega)]
      omega
    rw [hself, hadded] at hback
    rw [hback, hend, closeTo_renumber]
    rfl

namespace InList

variable {front back : List TokenKind} (h : InList front back)

include h

/-- The elements are the same ones, up to the numbers of their tokens. -/
theorem nodes_parted :
    (ElementTree.ofKinds (front ++ .endAttributes :: .startAttributes :: back)).nodes =
      (ElementTree.ofKinds (front ++ back)).nodes.map (Element.renumber (skip front.length)) := by
  obtain ⟨added, -, hrun⟩ := h.run_parted
  exact congrArg ElementTree.Builder.nodes hrun

/-- Each token has the same owner. -/
theorem owner?_parted (i : Nat) :
    (ElementTree.ofKinds (front ++ .endAttributes :: .startAttributes :: back)).owner?
      (skip front.length i) = (ElementTree.ofKinds (front ++ back)).owner? i := by
  obtain ⟨added, howners, hrun⟩ := h.run_parted
  have howners' := congrArg ElementTree.Builder.owners hrun
  have hsize := ElementTree.Builder.size_owners_steps .start 0 front
  change (ElementTree.Builder.run _ _ _).owners[_]?.join =
    (ElementTree.Builder.run _ _ _).owners[_]?.join
  rw [howners, howners']
  dsimp only
  generalize ElementTree.Builder.start.steps 0 front = b at hsize
  rw [ElementTree.Builder.start, Array.size_empty, Nat.zero_add] at hsize
  by_cases hi : i < front.length
  · rw [skip, if_pos hi, Array.append_assoc, Array.getElem?_append_left (hsize ▸ hi),
      Array.getElem?_append_left (hsize ▸ hi)]
  · have htwo : (b.owners ++ #[b.currentOwner, b.currentOwner]).size = front.length + 2 := by
      rw [Array.size_append, hsize]
      rfl
    rw [skip, if_neg hi, Array.getElem?_append_right (by omega), Array.getElem?_append_right
      (by omega), htwo, hsize, Nat.add_sub_add_right]

/-- The end of the first part has the owner of the attributes around it and of the end of the
    list. -/
theorem owner?_between {attributes rest : List TokenKind}
    (hback : back = attributes ++ .endAttributes :: rest)
    (hattributes : ∀ kind ∈ attributes, kind.attribute?.isSome = true) :
    let owner := (ElementTree.ofKinds
      (front ++ .endAttributes :: .startAttributes :: back)).owner? front.length
    (ElementTree.ofKinds (front ++ back)).owner? (front.length - 1) = owner ∧
      (ElementTree.ofKinds (front ++ back)).owner? (front.length + attributes.length) = owner := by
  intro owner
  have howner : owner = (ElementTree.Builder.start.steps 0 front).currentOwner :=
    ElementTree.owner?_of_isListed rfl
  rw [howner]
  constructor
  · obtain ⟨before, others, last, hfront, hothers⟩ := h.opening
    obtain ⟨-, hlast⟩ := List.forall_mem_append.1 hothers
    have hlast' : last.isListed = true :=
      TokenKind.isListed_of_isSome (hlast last List.mem_cons_self)
    obtain ⟨init, rfl⟩ : ∃ init, front = init ++ [last] :=
      ⟨before ++ .startAttributes :: others, by rw [hfront, List.append_assoc]; rfl⟩
    rw [List.append_assoc, List.singleton_append, List.length_append, List.length_singleton,
      Nat.add_sub_cancel, ElementTree.owner?_of_isListed hlast', ElementTree.Builder.steps_append]
    exact (ElementTree.Builder.steps_attributes hlast _ _).1.symm
  · rw [hback, ← List.append_assoc, ← List.length_append, ElementTree.owner?_of_isListed rfl,
      ElementTree.Builder.steps_append]
    exact (ElementTree.Builder.steps_attributes hattributes _ _).1

/-- Elements start at the same tokens. -/
theorem elementAt?_parted (i : Nat) :
    (ElementTree.ofKinds (front ++ .endAttributes :: .startAttributes :: back)).elementAt?
      (skip front.length i) = (ElementTree.ofKinds (front ++ back)).elementAt? i := by
  refine Option.ext fun id => ?_
  rw [(ElementTree.consistent_ofKinds _).elementAt?,
    (ElementTree.consistent_ofKinds _).elementAt?, h.nodes_parted, Array.getElem?_map]
  constructor
  · rintro ⟨_, hid, htoken⟩
    obtain ⟨element, helement, rfl⟩ := Option.map_eq_some_iff.1 hid
    exact ⟨element, helement, skip_inj htoken⟩
  · rintro ⟨element, hid, rfl⟩
    exact ⟨element.renumber _, Option.map_eq_some_iff.2 ⟨element, hid, rfl⟩, rfl⟩

/-- No element starts between the two parts. -/
theorem elementAt?_between {i : Nat} (hi : i = front.length ∨ i = front.length + 1) :
    (ElementTree.ofKinds (front ++ .endAttributes :: .startAttributes :: back)).elementAt? i =
      none := by
  rw [Option.eq_none_iff_forall_ne_some]
  intro id hid
  rw [(ElementTree.consistent_ofKinds _).elementAt?, h.nodes_parted, Array.getElem?_map] at hid
  obtain ⟨_, hid, htoken⟩ := hid
  obtain ⟨element, -, rfl⟩ := Option.map_eq_some_iff.1 hid
  have hskip : skip front.length element.token = i := htoken
  rw [skip] at hskip
  split at hskip <;> omega

end InList

end PugLint
