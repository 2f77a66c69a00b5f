import PugLint.Proofs.Chain
import PugLint.Proofs.Element.Following
import PugLint.Proofs.Token.Bracketing

/-!
# Attributes and their elements

Rules find the element of an attribute in three ways: by the owner of the token, by the
attributes that the elements list, and by the element that was started last where tokens are
gone through. In a template that can be read the three agree, as every list of attributes
stands in the head of an element.

* `ElementTree.Builder.Hosts`: every attribute finds an element on its line;
* `ElementTree.Builder.Listed`: elements list the attributes that they own;
* `Trackers.currentTag_of_lastMet`: the element that was started last;
* `attributesAgree_tokenize`: the three ways agree.
-/

namespace PugLint

open Lexer

/-- Whether a token with a given number is an attribute. -/
def isAttributeAt (kinds : List TokenKind) (i : Nat) : Bool :=
  (kinds[i]?.bind TokenKind.attribute?).isSome

theorem isAttributeAt_append_left {kinds : List TokenKind} {i : Nat} (h : i < kinds.length)
    (others : List TokenKind) : isAttributeAt (kinds ++ others) i = isAttributeAt kinds i := by
  rw [isAttributeAt, isAttributeAt, List.getElem?_append_left h]

theorem isAttributeAt_concat (kinds : List TokenKind) (kind : TokenKind) :
    isAttributeAt (kinds ++ [kind]) kinds.length = kind.attribute?.isSome := by
  rw [isAttributeAt, List.getElem?_concat_length, Option.bind_some]

theorem lt_length_of_isAttributeAt {kinds : List TokenKind} {i : Nat}
    (h : isAttributeAt kinds i = true) : i < kinds.length := by
  by_contra hge
  rw [isAttributeAt, List.getElem?_eq_none (Nat.not_lt.1 hge)] at h
  cases h

/-! ### Attributes of elements -/

namespace ElementTree.Builder

/-- Every attribute among tokens finds an element on its line. -/
def Hosts (b : Builder) (i : Nat) : List TokenKind → Prop
  | [] => True
  | kind :: kinds =>
    (kind.attribute?.isSome = true → b.current.isSome = true) ∧ (b.step i kind).Hosts (i + 1) kinds

theorem hosts_append {b : Builder} {i : Nat} {kinds others : List TokenKind} :
    b.Hosts i (kinds ++ others) ↔
      b.Hosts i kinds ∧ (b.steps i kinds).Hosts (i + kinds.length) others := by
  induction kinds generalizing b i with
  | nil => exact (and_iff_right trivial).symm
  | cons kind kinds ih =>
    rw [List.cons_append, Hosts, Hosts, ih, and_assoc, steps, List.length_cons,
      Nat.add_comm kinds.length, ← Nat.add_assoc]

theorem hosts_of_forall {b : Builder} {i : Nat} {kinds : List TokenKind}
    (h : ∀ kind ∈ kinds, kind.attribute? = none) : b.Hosts i kinds := by
  induction kinds generalizing b i with
  | nil => trivial
  | cons kind kinds ih =>
    obtain ⟨hkind, hkinds⟩ := List.forall_mem_cons.1 h
    refine ⟨fun hsome => ?_, ih hkinds⟩
    rw [hkind] at hsome
    cases hsome

end ElementTree.Builder

theorem Lexer.WholeLine.attribute?_eq_none {line : List Char} {kind : TokenKind}
    {opensBlock : Bool} (h : WholeLine line kind opensBlock) : kind.attribute? = none :=
  h.of_kind (fun _ => rfl) (fun _ _ => rfl) (fun _ _ => rfl) (fun _ => rfl) fun _ _ => rfl

/-- Apart from those in lists, no piece holds attributes. -/
theorem Lexer.Move.attribute?_eq_none {s t : Lexer.State} {piece : Piece} {rest : List Char}
    (h : Move s piece rest t) (hs : s.stage ≠ .list) :
    ∀ kind ∈ piece.kinds, kind.attribute? = none := by
  cases h with
  | listed | closes => exact absurd rfl hs
  | start | element | ended | trailing => exact List.forall_mem_nil _
  | whole h => exact List.forall_mem_singleton.2 h.attribute?_eq_none
  | code h => cases h <;> exact List.forall_mem_singleton.2 rfl
  | next _ _ _ _ h =>
    cases h with
    | deeper | same => exact List.forall_mem_singleton.2 rfl
    | outer => exact fun kind hkind => List.eq_of_mem_replicate hkind ▸ rfl
  | finish =>
    refine List.forall_mem_append.2 ⟨?_, List.forall_mem_singleton.2 rfl⟩
    exact fun kind hkind => List.eq_of_mem_replicate hkind ▸ rfl
  | literal h => cases h <;> exact List.forall_mem_singleton.2 rfl
  | bar | call | tag | dot | opens | spread | colon | slash | text | interpolation | raw | rawText
  | rawNext | rawClose => exact List.forall_mem_singleton.2 rfl

namespace ElementTree.Builder

variable {b c : Builder}

/-- In a list of attributes there is an element on the line. -/
theorem Follows.hosts_move {s t : Lexer.State} {piece : Piece} {rest : List Char}
    (h : b.Follows s) (hmove : Move s piece rest t) (i : Nat) : b.Hosts i piece.kinds := by
  by_cases hs : s.stage = .list
  · cases hmove with
    | listed => exact ⟨fun _ => h.stage.2.1, trivial⟩
    | closes => exact hosts_of_forall (List.forall_mem_singleton.2 rfl)
    | _ => cases hs
  · exact hosts_of_forall (hmove.attribute?_eq_none hs)

theorem Follows.hosts_path {s t : Lexer.State} {pieces : List Piece} {rest : List Char}
    (h : b.Follows s) (hpath : Path s pieces rest t) (i : Nat) :
    b.Hosts i (pieces.flatMap Piece.kinds) := by
  induction hpath generalizing b i with
  | nil => trivial
  | cons hmove _ ih =>
    rw [List.flatMap_cons, hosts_append]
    exact ⟨h.hosts_move hmove i, ih (h.move hmove i) _⟩

end ElementTree.Builder

/-- The attributes among tokens that an element owns, in their order. -/
def ownedAttributes (kinds : List TokenKind) (owners : Array (Option Nat)) (id : Nat) :
    List Nat :=
  (List.range kinds.length).filter fun i =>
    isAttributeAt kinds i && owners[i]?.join == some id

theorem ownedAttributes_push {kinds : List TokenKind} {owners : Array (Option Nat)}
    (h : owners.size = kinds.length) (kind : TokenKind) (owner : Option Nat) (id : Nat) :
    ownedAttributes (kinds ++ [kind]) (owners.push owner) id =
      ownedAttributes kinds owners id ++
        if kind.attribute?.isSome && owner == some id then [kinds.length] else [] := by
  have hbefore : (List.range kinds.length).filter (fun i =>
        isAttributeAt (kinds ++ [kind]) i && (owners.push owner)[i]?.join == some id) =
      ownedAttributes kinds owners id := by
    refine List.filter_congr fun i hi => ?_
    have hi := List.mem_range.1 hi
    rw [isAttributeAt_append_left hi, Array.getElem?_push, if_neg (by omega)]
  rw [ownedAttributes, List.length_append, List.length_singleton, List.range_succ,
    List.filter_append, hbefore, List.filter_singleton, isAttributeAt_concat, ← h,
    Array.getElem?_push_size, Option.join_some,
    Bool.cond_eq_ite]

namespace ElementTree.Builder

variable {b : Builder}

/-- The elements list the attributes that they own, and every attribute has an owner. -/
structure Listed (b : Builder) (kinds : List TokenKind) : Prop where
  /-- Every token has been given its owner. -/
  size : b.owners.size = kinds.length
  /-- The attributes of an element. -/
  attributes {id : Nat} {element : Element} (h : b.nodes[id]? = some element) :
    element.attributes = ownedAttributes kinds b.owners id
  /-- The owner of an attribute. -/
  owner {i : Nat} (h : isAttributeAt kinds i = true) :
    ∃ id, b.owners[i]?.join = some id ∧ id < b.nodes.size

theorem listed_start : Builder.start.Listed [] where
  size := rfl
  attributes h := nomatch h
  owner h := nomatch h

/-- A token that is no attribute leaves the attributes of all elements as they are. -/
theorem attributes_step {kind : TokenKind} (h : kind.attribute? = none) {i id : Nat}
    {element : Element} (hid : (b.step i kind).nodes[id]? = some element) :
    (∃ old, b.nodes[id]? = some old ∧ element.attributes = old.attributes) ∨
      id = b.nodes.size ∧ element.attributes = [] := by
  have hcloses {c : Builder} {level : Nat} (hnodes : c.nodes = b.nodes)
      (hid : (c.closeTo level i).nodes[id]? = some element) :
      ∃ old, b.nodes[id]? = some old ∧ element.attributes = old.attributes := by
    obtain ⟨closed, hclosed⟩ := c.exists_closes level i
    obtain ⟨old, hold, _, hattributes, _⟩ := hclosed.getElem?_cases hid
    exact ⟨old, hnodes ▸ hold, hattributes⟩
  have hopens {name : String} {written : ElementKind} {tagToken : Option Nat}
      (hid : (b.openElement i name written tagToken).nodes[id]? = some element) :
      (∃ old, b.nodes[id]? = some old ∧ element.attributes = old.attributes) ∨
        id = b.nodes.size ∧ element.attributes = [] := by
    rcases openElement_cases hid with ⟨old, hold, _, _, hattributes⟩ | ⟨hnew, _, _, hattributes⟩
    · exact .inl ⟨old, hold, hattributes⟩
    · exact .inr ⟨hnew, hattributes⟩
  unfold step at hid
  split at hid
  case h_1 =>
    split at hid
    · exact .inl ⟨element, hid, rfl⟩
    · exact .inl (hcloses rfl hid)
  case h_3 => exact .inl (hcloses rfl hid)
  case h_4 => exact .inl (hcloses rfl hid)
  case h_5 | h_6 => exact hopens hid
  case h_7 | h_8 =>
    split at hid
    · exact hopens hid
    · exact .inl ⟨element, hid, rfl⟩
  case h_12 => cases h
  all_goals exact .inl ⟨element, hid, rfl⟩

theorem exists_owners_step (b : Builder) (i : Nat) (kind : TokenKind) :
    ∃ owner, (b.step i kind).owners = b.owners.push owner := by
  have hchange := change_step b i kind
  generalize b.step i kind = c at hchange
  cases hchange with
  | opens | adds => exact ⟨_, rfl⟩
  | closes _ howners => exact ⟨_, howners⟩
  | stays _ _ _ howners => exact ⟨_, howners⟩

theorem size_nodes_step (b : Builder) (i : Nat) (kind : TokenKind) :
    b.nodes.size ≤ (b.step i kind).nodes.size := by
  have hchange := change_step b i kind
  generalize b.step i kind = c at hchange
  cases hchange with
  | opens => exact (size_openElement ..).symm ▸ Nat.le_succ _
  | adds => exact Nat.le_of_eq Array.size_modify.symm
  | closes hcloses =>
    rw [← length_parentsOf, ← length_parentsOf, hcloses.parentsOf_eq]
  | stays hnodes => exact Nat.le_of_eq (congrArg Array.size hnodes).symm

theorem Listed.step {kinds : List TokenKind} {kind : TokenKind} (h : b.Listed kinds)
    (hordered : b.Ordered) (hhost : kind.attribute?.isSome = true → b.current.isSome = true) :
    (b.step kinds.length kind).Listed (kinds ++ [kind]) := by
  obtain ⟨owner, howners⟩ := exists_owners_step b kinds.length kind
  have hsize := size_nodes_step b kinds.length kind
  -- The owners of the tokens so far stay, and that of an attribute is the element of the line.
  have howner : kind.attribute?.isSome = true → ∃ id, b.current = some id ∧ owner = some id ∧
      (b.step kinds.length kind).nodes = b.nodes.modify id (withAttribute kinds.length) := by
    intro hkind
    obtain ⟨name, value, escaped, rfl⟩ := TokenKind.exists_eq_attribute hkind
    obtain ⟨id, hid, hstep⟩ := step_attribute b kinds.length name value escaped (hhost hkind)
    rw [hstep] at howners ⊢
    have hpush : b.owners.push (some id) = b.owners.push owner := howners
    exact ⟨id, hid, (Array.push_inj_right.1 hpush).symm, rfl⟩
  refine ⟨?_, fun {id element} hid => ?_, fun {i} hi => ?_⟩
  · rw [howners, Array.size_push, h.size, List.length_append, List.length_singleton]
  · rw [howners, ownedAttributes_push h.size]
    by_cases hkind : kind.attribute?.isSome = true
    · obtain ⟨current, hcurrent, rfl, hnodes⟩ := howner hkind
      rw [hnodes, Array.getElem?_modify] at hid
      rw [hkind, Bool.true_and]
      split at hid
      · rename_i hsame
        obtain ⟨old, hold, rfl⟩ := Option.map_eq_some_iff.1 hid
        rw [hsame, if_pos (beq_self_eq_true _), ← h.attributes hold]
        rfl
      · rename_i hother
        rw [if_neg (by simpa using hother), List.append_nil, h.attributes hid]
    · rw [Bool.eq_false_iff.2 hkind, Bool.false_and, if_neg Bool.false_ne_true, List.append_nil]
      rcases attributes_step (by simpa using hkind) hid with
        ⟨old, hold, hattributes⟩ | ⟨rfl, hattributes⟩
      · rw [hattributes, h.attributes hold]
      · -- A new element owns none of the tokens so far.
        rw [hattributes, ownedAttributes, eq_comm, List.filter_eq_nil_iff]
        intro i _ hi
        rw [Bool.and_eq_true, beq_iff_eq] at hi
        obtain ⟨id, hid, hlt⟩ := h.owner hi.1
        cases hi.2.symm.trans hid
        exact Nat.lt_irrefl _ hlt
  · rcases Nat.lt_or_ge i kinds.length with hlt | hge
    · rw [isAttributeAt_append_left hlt] at hi
      obtain ⟨id, hid, hidlt⟩ := h.owner hi
      refine ⟨id, ?_, Nat.lt_of_lt_of_le hidlt hsize⟩
      rw [howners, Array.getElem?_push, if_neg (by rw [h.size]; omega)]
      exact hid
    · obtain rfl : i = kinds.length := by
        have hlt := lt_length_of_isAttributeAt hi
        rw [List.length_append, List.length_singleton] at hlt
        omega
      rw [isAttributeAt_concat] at hi
      obtain ⟨id, hcurrent, rfl, _⟩ := howner hi
      have hlast := (hordered.current id hcurrent).1
      refine ⟨id, ?_, by omega⟩
      rw [howners, ← h.size, Array.getElem?_push_size, Option.join_some]

/-- All tokens of a list keep the attributes of elements. -/
theorem Listed.steps {kinds : List TokenKind} (others : List TokenKind) (h : b.Listed kinds)
    (hordered : b.Ordered) (hhosts : b.Hosts kinds.length others) :
    (b.steps kinds.length others).Listed (kinds ++ others) := by
  induction others generalizing b kinds with
  | nil => rwa [List.append_nil]
  | cons kind others ih =>
    obtain ⟨hhost, hhosts⟩ := hhosts
    have hstep := h.step hordered hhost
    have hordered' := hordered.change (change_step b b.owners.size kind)
    rw [h.size] at hordered'
    have hlength : kinds.length + 1 = (kinds ++ [kind]).length := by
      rw [List.length_append, List.length_singleton]
    rw [Builder.steps, ← List.singleton_append, ← List.append_assoc, hlength]
    exact ih hstep hordered' (hlength ▸ hhosts)

theorem Listed.closeTo {kinds : List TokenKind} (h : b.Listed kinds) (level token : Nat) :
    (b.closeTo level token).Listed kinds := by
  obtain ⟨closed, hcloses⟩ := b.exists_closes level token
  have hsize : (b.closeTo level token).nodes.size = b.nodes.size := by
    rw [← length_parentsOf, hcloses.parentsOf_eq, length_parentsOf]
  refine ⟨h.size, fun hid => ?_, fun hi => ?_⟩
  · obtain ⟨old, hold, _, hattributes, _⟩ := hcloses.getElem?_cases hid
    exact hattributes.trans (h.attributes hold)
  · rw [hsize]
    exact h.owner hi

end ElementTree.Builder

/-! ### The element that was started last -/

namespace Trackers

theorem currentTag_afterToken (trackers : Trackers) (i : Nat) (kind : TokenKind) :
    (trackers.afterToken i kind).currentTag = trackers.currentTag := by
  unfold afterToken
  split
  case h_4 => split <;> rfl
  all_goals rfl

/-- The element at hand is the last one that starts in front of a token. -/
theorem currentTag_of_lastMet {tokens : Array PlacedToken} {tree : ElementTree}
    (h : tree.Consistent) {n id : Nat} {element : Element} (hlast : tree.LastMet n id)
    (hid : tree.nodes[id]? = some element) :
    (behind tokens tree n).currentTag = some (id, element.name) := by
  induction n with
  | zero =>
    obtain ⟨⟨_, _, hlt⟩, _⟩ := hlast
    exact absurd hlt (Nat.not_lt_zero _)
  | succ n ih =>
    obtain ⟨⟨found, hfound, hlt⟩, hgreatest⟩ := hlast
    cases hid.symm.trans hfound
    rw [behind, update]
    cases hat : tree.elementAt? n with
    | some met =>
      obtain ⟨other, hother, htoken⟩ := h.elementAt?.1 hat
      obtain rfl : met = id := by
        refine Nat.le_antisymm (hgreatest ⟨other, hother, by omega⟩) (Nat.not_lt.1 fun hmet => ?_)
        have := h.increasing hother hid hmet
        omega
      cases hid.symm.trans hother
      dsimp only
      rw [hid]
      rfl
    | none =>
      have hne : element.token ≠ n := by
        intro htoken
        rw [h.elementAt?.2 ⟨element, hid, htoken⟩] at hat
        cases hat
      rw [currentTag_afterToken]
      refine ih ⟨⟨element, hid, by omega⟩, ?_⟩
      rintro other ⟨behind, hother, htoken⟩
      exact hgreatest ⟨behind, hother, Nat.lt_succ_of_lt htoken⟩

end Trackers

/-! ### Agreement -/

/-- The ways to find the element of an attribute agree. -/
structure AttributesAgree (tokens : List PlacedToken) (tree : ElementTree) : Prop where
  /-- The owner of an attribute lists it, and is the element that was started last where
      the attribute is met. -/
  owner {i : Nat} (h : isAttributeAt (tokens.map PlacedToken.kind) i = true) :
    ∃ id element, tree.owner? i = some id ∧ tree.nodes[id]? = some element ∧
      i ∈ element.attributes ∧
      (Trackers.behind tokens.toArray tree (i + 1)).currentTag = some (id, element.name)
  /-- An element lists the attributes that it owns, in their order. -/
  attributes {id : Nat} {element : Element} (h : tree.nodes[id]? = some element) :
    element.attributes = (List.range tokens.length).filter fun i =>
      isAttributeAt (tokens.map PlacedToken.kind) i && tree.owner? i == some id

/-- Where every attribute finds an element on its line, the elements agree with the tokens. -/
theorem ElementTree.attributesAgree_build {tokens : List PlacedToken}
    (h : Builder.start.Hosts 0 (tokens.map PlacedToken.kind)) :
    AttributesAgree tokens (build tokens) := by
  have hordered := ordered_run (tokens.map PlacedToken.kind)
  have hconsistent := consistent_ofKinds (tokens.map PlacedToken.kind)
  have hlisted : (Builder.start.run 0 (tokens.map PlacedToken.kind)).Listed
      (tokens.map PlacedToken.kind) := by
    rw [Builder.run_eq_closeTo]
    exact (Builder.listed_start.steps _ Builder.Ordered.start h).closeTo _ _
  have hattributes {id : Nat} {element : Element} (hid : (build tokens).nodes[id]? = some element) :
      element.attributes = (List.range tokens.length).filter fun i =>
        isAttributeAt (tokens.map PlacedToken.kind) i && (build tokens).owner? i == some id := by
    rw [hlisted.attributes hid, ownedAttributes, List.length_map]
    rfl
  refine ⟨fun {i} hi => ?_, hattributes⟩
  obtain ⟨id, howner, hlt⟩ := hlisted.owner hi
  obtain ⟨element, hid⟩ : ∃ element, (build tokens).nodes[id]? = some element :=
    ⟨_, Array.getElem?_eq_getElem hlt⟩
  have hmem : i ∈ element.attributes := by
    have hilt := lt_length_of_isAttributeAt hi
    rw [List.length_map] at hilt
    rw [hattributes hid, List.mem_filter, List.mem_range, hi, Bool.true_and, beq_iff_eq]
    exact ⟨hilt, howner⟩
  -- The attributes of an element stand in front of the next element.
  obtain ⟨htoken, _, hnext⟩ := hordered.attributes hid i hmem
  have hlast : (build tokens).LastMet (i + 1) id := by
    refine ⟨⟨element, hid, Nat.lt_succ_of_lt htoken⟩, ?_⟩
    rintro other ⟨behind, hother, hbehind⟩
    refine Nat.not_lt.1 fun hlt => ?_
    have := hnext other behind hother hlt
    omega
  exact ⟨id, element, howner, hid, hmem, Trackers.currentTag_of_lastMet hconsistent hlast hid⟩

/-- In every template that can be read, wherever it stands, the owner of an attribute, the
    elements that list it and the element that was started last agree. -/
theorem attributesAgree_tokenize {template : String} {tokens : List Token}
    (h : tokenize template = .ok tokens) (offset line : Nat) :
    AttributesAgree (placeTokens tokens template.toList offset line)
      (ElementTree.build (placeTokens tokens template.toList offset line)) := by
  obtain ⟨pieces, hpath, _, rfl⟩ := exists_path_tokenize h
  refine ElementTree.attributesAgree_build ?_
  rw [map_kind_placeTokens, map_kind_tokensFrom]
  exact ElementTree.Builder.follows_start.hosts_path hpath 0

/-- The attributes of a template with a list and a block of raw text. -/
theorem attributesAgree_tokenize_note :
    tokenize noteTemplate = .ok noteTokens ∧
      AttributesAgree (placeTokens noteTokens noteTemplate.toList 10 3)
        (ElementTree.build (placeTokens noteTokens noteTemplate.toList 10 3)) :=
  ⟨tokenize_note, attributesAgree_tokenize tokenize_note 10 3⟩

end PugLint
