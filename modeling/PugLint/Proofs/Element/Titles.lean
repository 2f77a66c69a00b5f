import PugLint.Proofs.Element.Consistency
import PugLint.Rule

/-!
# Names of elements

An element that is written with a tag has the name that its first token says, and it keeps the
name whatever tokens follow.

* `ElementTree.Builder.Titled`: the tags of a list of tokens name the elements;
* `ElementTree.Builder.Titled.step`, `ElementTree.Builder.Titled.run`: a token keeps it, and
  so do all tokens of a list;
* `ElementTree.kind_of_nodes`: the elements of a list of tokens;
* `View.kind_token_of_element?`: the token that starts an element with a tag.
-/

namespace PugLint

namespace ElementTree

namespace Builder

/-- What an element is called: its first token, how it is written, and its name. -/
def titlesOf (nodes : Array Element) : List (Nat × ElementKind × String) :=
  nodes.toList.map fun element => (element.token, element.kind, element.name)

/-- The elements written with tags have the names that their first tokens say. -/
def Titled (b : Builder) (kinds : List TokenKind) : Prop :=
  ∀ token name, (token, ElementKind.tag, name) ∈ titlesOf b.nodes →
    kinds[token]? = some (.tag name)

variable {b c : Builder} {kinds : List TokenKind}

theorem Titled.congr (h : b.Titled kinds) (htitles : titlesOf c.nodes = titlesOf b.nodes) :
    c.Titled kinds := by
  rw [Titled, htitles]
  exact h

theorem Titled.closeTo (h : b.Titled kinds) (level token : Nat) :
    (b.closeTo level token).Titled kinds :=
  h.congr (map_closeFrom (fun _ _ => rfl) ..)

theorem Titled.openElement (h : b.Titled kinds) {i : Nat} {name : String}
    {written : ElementKind} (htag : written = .tag → kinds[i]? = some (.tag name))
    (tagToken : Option Nat) : (b.openElement i name written tagToken).Titled kinds := by
  have htitles : titlesOf (b.openElement i name written tagToken).nodes =
      titlesOf b.nodes ++ [(i, written, name)] :=
    map_openElement (fun _ _ => rfl) (fun _ _ _ => rfl) ..
  intro token other hm
  rw [htitles] at hm
  rcases List.mem_append.1 hm with hm | hm
  · exact h token other hm
  · cases List.mem_singleton.1 hm
    exact htag rfl

/-- Every token keeps the names. -/
theorem Titled.step (h : b.Titled kinds) {i : Nat} {kind : TokenKind}
    (hkind : kinds[i]? = some kind) : (b.step i kind).Titled kinds := by
  unfold Builder.step
  split
  case h_1 =>
    split
    · exact h.congr rfl
    · exact (h.closeTo b.level i).congr rfl
  case h_3 => exact (h.closeTo (b.level - 1) i).congr rfl
  case h_4 => exact (h.closeTo 0 i).congr rfl
  case h_5 => exact h.openElement (fun _ => hkind) _
  case h_6 => exact h.openElement (by rintro ⟨⟩) _
  case h_7 | h_8 =>
    split
    · exact h.openElement (by rintro ⟨⟩) _
    · exact h.congr rfl
  case h_12 =>
    refine h.congr ?_
    cases b.current with
    | none => rfl
    | some id => exact map_modify _ _ fun _ => rfl
  all_goals exact h.congr rfl

/-- All tokens keep the names; the tokens in front are those that were read before. -/
theorem Titled.run {others : List TokenKind} (h : b.Titled (kinds ++ others)) :
    (b.run kinds.length others).Titled (kinds ++ others) := by
  induction others generalizing b kinds with
  | nil => exact h.closeTo 0 _
  | cons kind others ih =>
    have hkind : (kinds ++ kind :: others)[kinds.length]? = some kind := by
      rw [List.getElem?_append_right (Nat.le_refl _), Nat.sub_self]
      rfl
    have hstep := h.step hkind
    rw [List.append_cons] at hstep ⊢
    have hrun := ih hstep
    rw [List.length_append] at hrun
    exact hrun

end Builder

/-- An element written with a tag has the name that its first token says. -/
theorem kind_of_nodes {kinds : List TokenKind} {id : Nat} {element : Element}
    (h : (ofKinds kinds).nodes[id]? = some element) (hkind : element.kind = .tag) :
    kinds[element.token]? = some (.tag element.name) := by
  have hstart : Builder.start.Titled ([] ++ kinds) := fun _ _ hm => absurd hm List.not_mem_nil
  refine hstart.run element.token element.name (List.mem_map.2 ⟨element, ?_, ?_⟩)
  · exact Array.mem_toList_iff.2 (Array.mem_of_getElem? h)
  · rw [hkind]

end ElementTree

/-- The token that starts an element written with a tag says its name. -/
theorem View.kind_token_of_element? {view : View} {tokens : List PlacedToken} {element : Element}
    (htokens : view.tokens = tokens.toArray) (htree : view.tree = .build tokens)
    (h : view.element? = some element) (hkind : element.kind = .tag) :
    view.token.kind = .tag element.name := by
  obtain ⟨id, hid, hnode⟩ := Option.bind_eq_some_iff.1 h
  rw [node?, htree] at hnode
  rw [htree] at hid
  have hconsistent : (ElementTree.build tokens).Consistent := ElementTree.consistent_ofKinds _
  obtain ⟨found, hfound, htoken⟩ := hconsistent.elementAt?.1 hid
  rw [hnode] at hfound
  cases hfound
  have hname := ElementTree.kind_of_nodes hnode hkind
  rw [htoken, List.getElem?_map, Option.map_eq_some_iff] at hname
  obtain ⟨token, hat, hname⟩ := hname
  rw [View.token, token?, htokens, List.getElem?_toArray, hat]
  exact hname

end PugLint
