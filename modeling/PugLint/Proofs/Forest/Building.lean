import Mathlib.Data.List.DropRight
import PugLint.Proofs.Element.Links
import PugLint.Proofs.Forest

/-!
# Building forests

The tokens of a forest are read one by one into elements. Between two lines, the
open elements are a path from the innermost one outwards, one for each level, and a
line leaves those open that it is nested in.

* `Look`, `looks`, `contents`: what is seen of elements and of their tokens;
* `ElementTree.Builder.Builds`: how far a builder has come with a list of tokens;
* `ElementTree.Builder.Builds.head`, `ElementTree.Builder.Builds.depth`: what the
  tokens of a head and of an indentation do;
* `Forest.entries`: the heads of a forest with the numbers of their parents;
* `ElementTree.Builder.Builds.forest`: the lines of a forest make its elements.
-/

namespace PugLint

/-! ### What is seen of elements -/

/-- What is seen of an element besides the tokens that it owns. -/
structure Look where
  /-- The element that it is nested in. -/
  parent : Option Nat
  /-- The name. -/
  name : String
  /-- How the element is written. -/
  kind : ElementKind
  /-- The attributes. -/
  attributes : List (String × Option String)

/-- Whether a token is there for the layout of the lines. -/
def TokenKind.isLayout : TokenKind → Bool
  | .newline | .indent _ | .outdent | .eos => true
  | _ => false

/-- Whether a token can stand in the head of an element, behind its name. -/
def TokenKind.isInner : TokenKind → Bool
  | .classLiteral _ | .idLiteral _ | .startAttributes | .attribute _ _ _ | .endAttributes
  | .text _ => true
  | _ => false

/-- What is seen of an element among tokens of given kinds. -/
def Element.look (kinds : List TokenKind) (element : Element) : Look :=
  { parent := element.parent, name := element.name, kind := element.kind
    attributes := element.attributes.filterMap fun i => kinds[i]?.bind TokenKind.attribute? }

/-- What is seen of each element. -/
def looks (kinds : List TokenKind) (nodes : Array Element) : List Look :=
  nodes.toList.map (Element.look kinds)

/-- The tokens with their owners, without those for the layout of the lines. -/
def contents (kinds : List TokenKind) (owners : Array (Option Nat)) :
    List (Option Nat × TokenKind) :=
  (owners.toList.zip kinds).filter fun (_, kind) => !kind.isLayout

section Seen

variable {kinds : List TokenKind}

theorem length_looks (nodes : Array Element) : (looks kinds nodes).length = nodes.size := by
  rw [looks, List.length_map, Array.length_toList]

theorem getElem?_looks (nodes : Array Element) (id : Nat) :
    (looks kinds nodes)[id]? = nodes[id]?.map (Element.look kinds) := by
  rw [looks, List.getElem?_map, Array.getElem?_toList]

/-- An attribute is added to an element. -/
theorem looks_addAttribute (nodes : Array Element) (id : Nat) {i : Nat} {kind : TokenKind}
    (h : kinds[i]? = some kind) :
    looks kinds (nodes.modify id fun node => { node with attributes := node.attributes ++ [i] }) =
      (looks kinds nodes).modify id fun look =>
        { look with attributes := look.attributes ++ kind.attribute?.toList } := by
  have hlast : [i].filterMap (fun i => kinds[i]?.bind TokenKind.attribute?) =
      kind.attribute?.toList := by
    simp only [List.filterMap, h, Option.bind_some]
    cases kind.attribute? <;> rfl
  refine List.ext_getElem? fun other => ?_
  rw [getElem?_looks, Array.getElem?_modify, List.getElem?_modify, getElem?_looks]
  cases nodes[other]? with
  | none => split <;> rfl
  | some node =>
    split
    · simp [Element.look, List.filterMap_append, hlast]
    · rfl

/-- The next token gets an owner. -/
theorem contents_push {owners : Array (Option Nat)} {kind : TokenKind} {rest : List TokenKind}
    (h : kinds.drop owners.size = kind :: rest) (owner : Option Nat) :
    contents kinds (owners.push owner) =
      contents kinds owners ++ if kind.isLayout then [] else [(owner, kind)] := by
  have hkinds : kinds = kinds.take owners.size ++ kind :: rest := by
    rw [← h, List.take_append_drop]
  have hlength : owners.toList.length = (kinds.take owners.size).length := by
    have hlt : owners.size < kinds.length := by
      rw [← Nat.sub_pos_iff_lt, ← List.length_drop, h]
      exact Nat.succ_pos _
    rw [Array.length_toList, List.length_take, Nat.min_eq_left (Nat.le_of_lt hlt)]
  have hzip : (owners.push owner).toList.zip kinds =
      owners.toList.zip kinds ++ [(owner, kind)] := by
    have hbefore : (owners.toList ++ []).zip (kinds.take owners.size ++ kind :: rest) = _ :=
      List.zip_append hlength
    rw [List.append_nil, ← hkinds, List.zip_nil_left, List.append_nil] at hbefore
    have hbehind : (owners.toList ++ [owner]).zip (kinds.take owners.size ++ kind :: rest) = _ :=
      List.zip_append hlength
    rw [← hkinds, ← hbefore] at hbehind
    rw [Array.toList_push, hbehind]
    rfl
  rw [contents, hzip, List.filter_append, ← contents]
  cases hlayout : kind.isLayout <;> simp [hlayout]

end Seen

/-! ### Open elements -/

section Rtake

variable {α : Type} {xs : List α} {m n : Nat}

theorem rtake_of_length_le (h : xs.length ≤ n) : xs.rtake n = xs := by
  rw [List.rtake, Nat.sub_eq_zero_of_le h, List.drop_zero]

theorem length_rtake_le (xs : List α) (n : Nat) : (xs.rtake n).length ≤ n := by
  rw [List.rtake, List.length_drop]
  omega

theorem rtake_rtake (h : m ≤ n) : (xs.rtake n).rtake m = xs.rtake m := by
  rw [List.rtake, List.rtake, List.drop_drop, List.length_drop, List.rtake]
  congr 1
  omega

theorem rtake_append_length (xs ys : List α) : (xs ++ ys).rtake ys.length = ys := by
  rw [List.rtake, List.length_append, Nat.add_sub_cancel, List.drop_left]

end Rtake

namespace ElementTree.Builder

/-- The open elements of a path from the innermost outwards, one for each level. -/
def levelled : List Nat → List (Nat × Nat)
  | [] => []
  | id :: path => (id, path.length) :: levelled path

/-- Closing the elements from a level on leaves the outermost ones. -/
theorem closeFrom_levelled (nodes : Array Element) (level token : Nat) (path : List Nat) :
    (closeFrom nodes level token (levelled path)).2 = levelled (path.rtake level) := by
  induction path generalizing nodes with
  | nil => simp [levelled, closeFrom]
  | cons id path ih =>
    rw [levelled, closeFrom]
    split
    · rename_i hlt
      rw [List.rtake, List.length_cons, Nat.sub_eq_zero_of_le hlt]
      rfl
    · rename_i hge
      have hlevel : (id :: path).length - level = path.length - level + 1 := by
        rw [List.length_cons]
        omega
      rw [ih, List.rtake, List.rtake, hlevel, List.drop_succ_cons]

theorem stack_closeTo {b : Builder} {path : List Nat} (h : b.stack = levelled path)
    (level token : Nat) : (b.closeTo level token).stack = levelled (path.rtake level) := by
  change (closeFrom b.nodes level token b.stack).2 = _
  rw [h, closeFrom_levelled]

theorem looks_closeTo (kinds : List TokenKind) (b : Builder) (level token : Nat) :
    looks kinds (b.closeTo level token).nodes = looks kinds b.nodes :=
  map_closeFrom (fun _ _ => rfl) ..

theorem looks_openElement (kinds : List TokenKind) (b : Builder) (token : Nat) (name : String)
    (kind : ElementKind) (tagToken : Option Nat) :
    looks kinds (b.openElement token name kind tagToken).nodes =
      looks kinds b.nodes ++ [{ parent := b.parent, name, kind, attributes := [] }] :=
  map_openElement (fun _ _ => rfl) (fun _ _ _ => rfl) ..

/-! ### Steps -/

/-- A builder that has read all of some tokens but the rest: the open elements, the
    level of its line, and what is seen of the elements and their tokens. -/
structure Builds (kinds rest : List TokenKind) (b : Builder) (path : List Nat) (level : Nat)
    (seen : List Look) (owned : List (Option Nat × TokenKind)) : Prop where
  /-- The run goes on with the rest. -/
  run : Builder.start.run 0 kinds = b.run b.owners.size rest
  /-- The rest. -/
  rest : kinds.drop b.owners.size = rest
  /-- The open elements. -/
  stack : b.stack = levelled path
  /-- The level of the line. -/
  level : b.level = level
  /-- No raw text is being read. -/
  inRawText : b.inRawText = false
  /-- No colon has been read. -/
  afterColon : b.afterColon = false
  /-- The elements. -/
  seen : looks kinds b.nodes = seen
  /-- The tokens with their owners. -/
  owned : contents kinds b.owners = owned

section Steps

variable {kinds rest : List TokenKind} {b : Builder} {path : List Nat} {level : Nat}
  {seen : List Look} {owned : List (Option Nat × TokenKind)}

theorem Builds.start (h : kinds = rest) : Builds kinds rest Builder.start [] 0 [] [] where
  run := congrArg (Builder.start.run 0) h
  rest := h
  stack := rfl
  level := rfl
  inRawText := rfl
  afterColon := rfl
  seen := rfl
  owned := rfl

theorem Builds.innermost (h : Builds kinds rest b path level seen owned) :
    b.innermost = path.head? := by
  rw [Builder.innermost, h.stack]
  cases path <;> rfl

/-- One step on. What it does to the run and to the rest is the same for all
    tokens. -/
theorem Builds.next {kind : TokenKind} (h : Builds kinds (kind :: rest) b path level seen owned)
    {c : Builder} (hstep : b.step b.owners.size kind = c) {owner : Option Nat}
    (howners : c.owners = b.owners.push owner) {path' : List Nat}
    (hstack : c.stack = levelled path') {level' : Nat} (hlevel : c.level = level')
    (hraw : c.inRawText = false) (hcolon : c.afterColon = false) {seen' : List Look}
    (hseen : looks kinds c.nodes = seen') :
    Builds kinds rest c path' level' seen'
      (owned ++ if kind.isLayout then [] else [(owner, kind)]) where
  run := by rw [h.run, Builder.run, hstep, howners, Array.size_push]
  rest := by
    rw [howners, Array.size_push, ← List.drop_drop, h.rest]
    rfl
  stack := hstack
  level := hlevel
  inRawText := hraw
  afterColon := hcolon
  seen := hseen
  owned := by rw [howners, contents_push h.rest, h.owned]

/-- A line of the same level closes the elements of that level. -/
theorem Builds.newline (h : Builds kinds (.newline :: rest) b path level seen owned) :
    ∃ c, Builds kinds rest c (path.rtake level) level seen owned := by
  have hstep : b.step b.owners.size .newline = (b.closeTo b.level b.owners.size).newLine := by
    rw [step, h.inRawText]
    rfl
  have hstack := stack_closeTo h.stack b.level b.owners.size
  rw [h.level] at hstack hstep
  rw [← List.append_nil owned]
  exact ⟨_, h.next hstep rfl hstack h.level h.inRawText rfl ((looks_closeTo ..).trans h.seen)⟩

/-- A deeper line closes nothing. -/
theorem Builds.indent {width : Nat}
    (h : Builds kinds (.indent width :: rest) b path level seen owned) :
    ∃ c, Builds kinds rest c path (level + 1) seen owned := by
  rw [← List.append_nil owned]
  exact ⟨_, h.next rfl rfl h.stack (congrArg (· + 1) h.level) h.inRawText rfl h.seen⟩

/-- A line further out closes the elements from its level on. -/
theorem Builds.outdent (h : Builds kinds (.outdent :: rest) b path level seen owned) :
    ∃ c, Builds kinds rest c (path.rtake (level - 1)) (level - 1) seen owned := by
  have hlevel : b.level - 1 = level - 1 := congrArg (· - 1) h.level
  have hstack : ({ b with level := b.level - 1 } : Builder).stack = levelled path := h.stack
  have hclosed := stack_closeTo hstack (b.level - 1) b.owners.size
  rw [← List.append_nil owned, ← hlevel]
  exact ⟨_, h.next rfl rfl hclosed rfl h.inRawText rfl ((looks_closeTo ..).trans h.seen)⟩

/-- The end of the template closes all elements. -/
theorem Builds.eos (h : Builds kinds [.eos] b path level seen owned) :
    looks kinds (ofKinds kinds).nodes = seen ∧ contents kinds (ofKinds kinds).owners = owned := by
  have howned := contents_push h.rest none
  rw [h.owned] at howned
  rw [ofKinds, h.run]
  refine ⟨?_, howned.trans (List.append_nil _)⟩
  exact (looks_closeTo ..).trans ((looks_closeTo ..).trans h.seen)

/-- A tag opens an element in the innermost one. -/
theorem Builds.tag {name : String} (h : Builds kinds (.tag name :: rest) b path level seen owned)
    (hlength : path.length = level) :
    ∃ c, Builds kinds rest c (seen.length :: path) level
        (seen ++ [{ parent := path.head?, name, kind := .tag, attributes := [] }])
        (owned ++ [(some seen.length, .tag name)]) ∧
      c.current = some seen.length ∧ c.lineStart = false := by
  have hsize : b.nodes.size = seen.length := by rw [← h.seen, length_looks]
  have hparent : b.parent = path.head? := by
    rw [parent, h.afterColon]
    exact h.innermost
  have hstack : (b.openElement b.owners.size name .tag (some b.owners.size)).stack =
      levelled (seen.length :: path) := by
    rw [levelled, hlength, ← h.level, ← h.stack, ← hsize]
    rfl
  have hseen := looks_openElement kinds b b.owners.size name .tag (some b.owners.size)
  rw [h.seen, hparent] at hseen
  have hnext := h.next rfl rfl hstack h.level h.inRawText rfl hseen
  rw [hsize] at hnext
  exact ⟨_, hnext, congrArg some hsize, rfl⟩

/-- A further token of a head is an attribute, or it changes no element. -/
theorem step_of_isInner {kind : TokenKind} (h : kind.isInner = true) :
    (∃ name value escaped, kind = .attribute name value escaped) ∨
    kind.attribute? = none ∧ kind.isLayout = false ∧
      ∀ (b : Builder) (i : Nat), b.lineStart = false → b.afterColon = false →
        b.step i kind = ({ b with lineStart := false }).own b.currentOwner := by
  unfold TokenKind.isInner at h
  split at h
  case h_1 | h_2 =>
    refine .inr ⟨rfl, rfl, fun b i hline hcolon => ?_⟩
    rw [step, hline, hcolon]
    rfl
  case h_4 name value escaped => exact .inl ⟨name, value, escaped, rfl⟩
  case h_3 | h_5 | h_6 => exact .inr ⟨rfl, rfl, fun _ _ _ _ => rfl⟩
  case h_7 => cases h

theorem modify_concat {α : Type} (xs : List α) (x : α) (f : α → α) :
    (xs ++ [x]).modify xs.length f = xs ++ [f x] := by
  induction xs with
  | nil => rfl
  | cons y xs ih => exact congrArg (y :: ·) ih

/-- A further token of a head goes to the element of the line. -/
theorem Builds.inner {kind : TokenKind} {look : Look}
    (h : Builds kinds (kind :: rest) b path level (seen ++ [look]) owned)
    (hcurrent : b.current = some seen.length) (hline : b.lineStart = false)
    (hinner : kind.isInner = true) :
    ∃ c, Builds kinds rest c path level
        (seen ++ [{ look with attributes := look.attributes ++ kind.attribute?.toList }])
        (owned ++ [(some seen.length, kind)]) ∧
      c.current = some seen.length ∧ c.lineStart = false := by
  have howner : b.currentOwner = some seen.length := by
    rw [currentOwner, hcurrent]
    rfl
  rcases step_of_isInner hinner with ⟨name, value, escaped, rfl⟩ | ⟨hnone, hlayout, hstep⟩
  · have hkind : kinds[b.owners.size]? = some (.attribute name value escaped) := by
      rw [← List.head?_drop, h.rest, List.head?_cons]
    have hseen := looks_addAttribute b.nodes seen.length hkind
    rw [h.seen, modify_concat] at hseen
    have hstep : b.step b.owners.size (.attribute name value escaped) =
        ({ b with nodes := b.nodes.modify seen.length fun node =>
            { node with attributes := node.attributes ++ [b.owners.size] } }).own
          (some seen.length) := by
      rw [step, hcurrent, howner]
    exact ⟨_, h.next hstep rfl h.stack h.level h.inRawText h.afterColon hseen, hcurrent, hline⟩
  · have hnext := h.next (hstep b _ hline h.afterColon) rfl h.stack h.level h.inRawText
      h.afterColon h.seen
    rw [hlayout, howner] at hnext
    rw [hnone, Option.toList_none, List.append_nil]
    exact ⟨_, hnext, hcurrent, rfl⟩

theorem Builds.inners {inner : List TokenKind} {look : Look}
    (h : Builds kinds (inner ++ rest) b path level (seen ++ [look]) owned)
    (hcurrent : b.current = some seen.length) (hline : b.lineStart = false)
    (hinner : ∀ kind ∈ inner, kind.isInner = true) :
    ∃ c, Builds kinds rest c path level
      (seen ++
        [{ look with attributes := look.attributes ++ inner.filterMap TokenKind.attribute? }])
      (owned ++ inner.map (some seen.length, ·)) := by
  induction inner generalizing b look owned with
  | nil =>
    rw [List.filterMap_nil, List.append_nil, List.map_nil, List.append_nil]
    exact ⟨b, h⟩
  | cons kind inner ih =>
    obtain ⟨hkind, hothers⟩ := List.forall_mem_cons.1 hinner
    obtain ⟨c, hc, hcurrent, hline⟩ := Builds.inner h hcurrent hline hkind
    obtain ⟨d, hd⟩ := ih hc hcurrent hline hothers
    have hattributes : (kind :: inner).filterMap TokenKind.attribute? =
        kind.attribute?.toList ++ inner.filterMap TokenKind.attribute? := by
      rw [List.filterMap_cons]
      cases kind.attribute? <;> rfl
    refine ⟨d, ?_⟩
    rw [hattributes, List.map_cons, List.append_cons owned, ← List.append_assoc look.attributes]
    exact hd

end Steps

end ElementTree.Builder

/-! ### Heads -/

/-- What is seen of an element with a given head. -/
def lookOf (entry : Option Nat × Head) : Look :=
  { parent := entry.1, name := entry.2.name, kind := .tag, attributes := entry.2.attributes }

/-- The tokens of the elements with given heads. -/
def ownedOf (entries : List (Option Nat × Head)) : List (Option Nat × TokenKind) :=
  entries.zipIdx.flatMap fun (entry, id) => entry.2.kinds.map (some id, ·)

theorem ownedOf_concat (entries : List (Option Nat × Head)) (parent : Option Nat) (head : Head) :
    ownedOf (entries ++ [(parent, head)]) =
      ownedOf entries ++ head.kinds.map (some entries.length, ·) := by
  rw [ownedOf, List.zipIdx_append, List.flatMap_append, ← ownedOf]
  simp

/-- The kinds of the tokens of a head behind the tag name. -/
def Head.inner (head : Head) : List TokenKind :=
  head.literals.map Literal.kind ++
    (listKinds head.attributes ++ (head.text.map TokenKind.text).toList)

theorem Head.kinds_eq (head : Head) : head.kinds = .tag head.name :: head.inner :=
  rfl

theorem isInner_of_mem_listKinds {entries : List (String × Option String)} {kind : TokenKind}
    (h : kind ∈ listKinds entries) : kind.isInner = true := by
  cases entries with
  | nil => cases h
  | cons entry entries =>
    rw [listKinds, List.cons_append, List.mem_cons, List.mem_append, List.mem_singleton] at h
    · rcases h with rfl | h | rfl
      · rfl
      · obtain ⟨_, _, rfl⟩ := List.mem_map.1 h
        rfl
      · rfl
    · exact List.cons_ne_nil _ _

theorem Head.isInner_of_mem {head : Head} {kind : TokenKind} (h : kind ∈ head.inner) :
    kind.isInner = true := by
  rw [Head.inner, List.mem_append, List.mem_append] at h
  rcases h with h | h | h
  · obtain ⟨literal, _, rfl⟩ := List.mem_map.1 h
    cases literal <;> rfl
  · exact isInner_of_mem_listKinds h
  · obtain ⟨_, _, rfl⟩ := Option.map_eq_some_iff.1 (Option.mem_toList.1 h)
    rfl

theorem filterMap_listKinds {α : Type} (f : TokenKind → Option α)
    (entries : List (String × Option String)) (hstart : f .startAttributes = none)
    (hend : f .endAttributes = none) :
    (listKinds entries).filterMap f =
      entries.filterMap fun entry => f (.attribute entry.1 entry.2 true) := by
  cases entries with
  | nil => rfl
  | cons entry entries =>
    rw [listKinds, List.filterMap_append, List.filterMap_cons_none hstart, List.filterMap_map,
      List.filterMap_cons_none hend, List.filterMap_nil, List.append_nil]
    · rfl
    · exact List.cons_ne_nil _ _

/-- What is read from the tokens of a head is read from its parts. -/
theorem Head.filterMap_inner {α : Type} (f : TokenKind → Option α) (head : Head)
    (hstart : f .startAttributes = none) (hend : f .endAttributes = none) :
    head.inner.filterMap f = head.literals.filterMap (fun literal => f literal.kind) ++
      (head.attributes.filterMap (fun entry => f (.attribute entry.1 entry.2 true)) ++
        head.text.toList.filterMap fun text => f (.text text)) := by
  have htext : (head.text.map TokenKind.text).toList = head.text.toList.map TokenKind.text := by
    cases head.text <;> rfl
  rw [Head.inner, List.filterMap_append, List.filterMap_append, filterMap_listKinds f _ hstart hend,
    List.filterMap_map, htext, List.filterMap_map]
  rfl

theorem Head.filterMap_attribute?_inner (head : Head) :
    head.inner.filterMap TokenKind.attribute? = head.attributes := by
  have hliterals : head.literals.filterMap (fun literal => literal.kind.attribute?) = [] :=
    List.filterMap_eq_nil_iff.2 fun literal _ => by cases literal <;> rfl
  have htext : head.text.toList.filterMap (fun text => (TokenKind.text text).attribute?) = [] :=
    List.filterMap_eq_nil_iff.2 fun _ _ => rfl
  rw [head.filterMap_inner _ rfl rfl, hliterals, htext, List.nil_append, List.append_nil]
  exact List.filterMap_some

namespace ElementTree.Builder

section Heads

variable {kinds rest : List TokenKind} {b : Builder} {path : List Nat} {level : Nat}
  {entries : List (Option Nat × Head)}

/-- The tokens of a head make an element in the innermost one. -/
theorem Builds.head {head : Head}
    (h : Builds kinds (head.kinds ++ rest) b path level (entries.map lookOf) (ownedOf entries))
    (hlength : path.length = level) :
    ∃ c, Builds kinds rest c (entries.length :: path) level
      ((entries ++ [(path.head?, head)]).map lookOf)
      (ownedOf (entries ++ [(path.head?, head)])) := by
  rw [head.kinds_eq, List.cons_append] at h
  obtain ⟨c, hc, hcurrent, hline⟩ := h.tag hlength
  obtain ⟨d, hd⟩ := hc.inners hcurrent hline fun _ => Head.isInner_of_mem
  refine ⟨d, ?_⟩
  rw [List.nil_append, head.filterMap_attribute?_inner, List.length_map, List.append_assoc] at hd
  rw [List.map_append, ownedOf_concat]
  exact hd

/-- Lines further out, where nothing above their level is open. -/
theorem Builds.outdents {seen : List Look} {owned : List (Option Nat × TokenKind)} {count : Nat}
    (h : Builds kinds (List.replicate count .outdent ++ rest) b path level seen owned)
    (hlength : path.length ≤ level) :
    ∃ c, Builds kinds rest c (path.rtake (level - count)) (level - count) seen owned := by
  induction count generalizing b path level with
  | zero =>
    rw [Nat.sub_zero, rtake_of_length_le hlength]
    exact ⟨b, h⟩
  | succ count ih =>
    obtain ⟨c, hc⟩ := h.outdent
    obtain ⟨d, hd⟩ := ih hc (length_rtake_le _ _)
    rw [rtake_rtake (by omega), Nat.sub_sub, Nat.add_comm 1] at hd
    exact ⟨d, hd⟩

/-- The tokens for the indentation of a line leave the elements open that the line
    is nested in. -/
theorem Builds.depth {seen : List Look} {owned : List (Option Nat × TokenKind)}
    {before depth : Nat}
    (h : Builds kinds (depthKinds before depth ++ rest) b path before seen owned)
    (hpath : path.length ≤ before + 1) (hdepth : depth ≤ path.length) :
    ∃ c, Builds kinds rest c (path.rtake depth) depth seen owned := by
  rw [depthKinds] at h
  split at h
  · rename_i hlt
    have heq : depth = before + 1 := by omega
    rw [rtake_of_length_le (heq ▸ hpath), heq]
    exact h.indent
  · split at h
    · rename_i hlt
      obtain ⟨count, hcount⟩ : ∃ count, before - depth = count + 1 := ⟨before - depth - 1, by omega⟩
      rw [hcount, List.replicate_succ] at h
      obtain ⟨c, hc⟩ := h.outdent
      obtain ⟨d, hd⟩ := hc.outdents (length_rtake_le _ _)
      have hleft : before - 1 - count = depth := by omega
      rw [hleft, rtake_rtake (by omega)] at hd
      exact ⟨d, hd⟩
    · have heq : before = depth := by omega
      rw [← heq]
      exact h.newline

end Heads

end ElementTree.Builder

/-! ### Forests -/

/-- The heads in the order of their lines, each with the number of the element that
    it is nested in, where the first has number `n` and the outermost ones are nested
    in `parent`. -/
def Forest.entries (parent : Option Nat) (n : Nat) : Forest → List (Option Nat × Head)
  | nil => []
  | cons head children rest =>
    (parent, head) :: (children.entries (some n) (n + 1) ++
      rest.entries parent (n + 1 + children.size))

@[simp] theorem Forest.length_entries (parent : Option Nat) (n : Nat) (forest : Forest) :
    (forest.entries parent n).length = forest.size := by
  induction forest generalizing parent n with
  | nil => rfl
  | cons head children rest ihchildren ihrest =>
    rw [entries, List.length_cons, List.length_append, ihchildren, ihrest, size]
    omega

namespace ElementTree.Builder

section Forests

variable {kinds : List TokenKind}

theorem Builds.last {b : Builder} {path : List Nat} {level count : Nat} {seen : List Look}
    {owned : List (Option Nat × TokenKind)}
    (h : Builds kinds (List.replicate count .outdent ++ [.eos]) b path level seen owned) :
    looks kinds (ofKinds kinds).nodes = seen ∧ contents kinds (ofKinds kinds).owners = owned := by
  induction count generalizing b path level with
  | zero => exact h.eos
  | succ count ih =>
    obtain ⟨c, hc⟩ := h.outdent
    exact ih hc

/-- The lines of a forest make its elements, all of them below the elements that the
    forest is nested in. Those stay open; what is open above them does not matter. -/
theorem Builds.forest (forest : Forest) (above base : List Nat) {b : Builder} {before : Nat}
    {entries : List (Option Nat × Head)} {lines : List (Nat × Head)}
    (h : Builds kinds (lineKinds before (forest.lines base.length ++ lines)) b (above ++ base)
      before (entries.map lookOf) (ownedOf entries))
    (hlength : (above ++ base).length ≤ before + 1) :
    ∃ c above' before', Builds kinds (lineKinds before' lines) c (above' ++ base) before'
        ((entries ++ forest.entries base.head? entries.length).map lookOf)
        (ownedOf (entries ++ forest.entries base.head? entries.length)) ∧
      (above' ++ base).length ≤ before' + 1 := by
  induction forest generalizing b above base before entries lines with
  | nil =>
    rw [Forest.entries, List.append_nil]
    exact ⟨b, above, before, h, hlength⟩
  | cons head children rest ihchildren ihrest =>
    rw [Forest.lines, List.cons_append, lineKinds, List.append_assoc, List.append_assoc] at h
    -- The line itself.
    obtain ⟨c₁, h₁⟩ := h.depth hlength (by simp)
    rw [rtake_append_length] at h₁
    obtain ⟨c₂, h₂⟩ := h₁.head rfl
    -- The lines of the elements nested in it.
    obtain ⟨c₃, above₃, before₃, h₃, hlength₃⟩ :=
      ihchildren [] (entries.length :: base) h₂ (Nat.le_refl _)
    -- The lines behind those.
    rw [List.append_cons above₃] at h₃ hlength₃
    obtain ⟨c₄, above₄, before₄, h₄, hlength₄⟩ :=
      ihrest (above₃ ++ [entries.length]) base h₃ hlength₃
    refine ⟨c₄, above₄, before₄, ?_, hlength₄⟩
    have hcount : entries.length + 1 + children.size = (entries ++ [(base.head?, head)] ++
        children.entries (some entries.length) (entries.length + 1)).length := by
      rw [List.length_append, List.length_append, Forest.length_entries, List.length_singleton]
    rw [Forest.entries, hcount]
    simpa using h₄

/-- The tokens of a forest, without or behind the break in front of its first line,
    make its elements. -/
theorem ofKinds_forest {forest : Forest}
    (h : kinds = forest.kinds ∨ kinds = .newline :: forest.kinds) :
    looks kinds (ofKinds kinds).nodes = (forest.entries none 0).map lookOf ∧
      contents kinds (ofKinds kinds).owners = ownedOf (forest.entries none 0) := by
  obtain ⟨b, hb⟩ : ∃ b, Builds kinds forest.kinds b [] 0 [] [] := by
    rcases h with h | h
    · exact ⟨_, Builds.start h⟩
    · exact (Builds.start h).newline
  cases forest with
  | nil => exact hb.eos
  | cons head children rest =>
    have hfirst : Builds kinds (head.kinds ++ lineKinds 0 (children.lines 1 ++ rest.lines 0)) b [] 0
        (([] : List (Option Nat × Head)).map lookOf) (ownedOf []) := hb
    obtain ⟨c₁, h₁⟩ := hfirst.head rfl
    obtain ⟨c₂, above₂, before₂, h₂, hlength₂⟩ := h₁.forest children [] [0] (Nat.le_refl _)
    rw [← List.append_nil (above₂ ++ [0]), ← List.append_nil (rest.lines 0)] at h₂
    rw [← List.append_nil (above₂ ++ [0])] at hlength₂
    obtain ⟨c₃, above₃, before₃, h₃, _⟩ := h₂.forest rest (above₂ ++ [0]) [] hlength₂
    have hcount : 0 + 1 + children.size =
        ([] ++ [(none, head)] ++ children.entries (some 0) 1).length := by
      rw [List.length_append, Forest.length_entries]
      rfl
    rw [Forest.entries, hcount]
    exact h₃.last

end Forests

end ElementTree.Builder

/-! ### Widths of indentations -/

theorem Element.look_plain (kinds : List TokenKind) :
    Element.look (kinds.map TokenKind.plain) = Element.look kinds := by
  have hattribute (i : Nat) : (kinds.map TokenKind.plain)[i]?.bind TokenKind.attribute? =
      kinds[i]?.bind TokenKind.attribute? := by
    rw [List.getElem?_map]
    cases kinds[i]? with
    | none => rfl
    | some kind => cases kind <;> rfl
  funext element
  rw [Element.look, Element.look, funext hattribute]

/-- The tokens without a width are all those that are not there for the layout. -/
theorem contents_plain (kinds : List TokenKind) (owners : Array (Option Nat)) :
    contents (kinds.map TokenKind.plain) owners = contents kinds owners := by
  have hlayout (kind : TokenKind) : kind.plain.isLayout = kind.isLayout := by
    cases kind <;> rfl
  have hplain {kind : TokenKind} (h : (!kind.isLayout) = true) : kind.plain = kind := by
    cases kind <;> first | rfl | cases h
  have hfilter : ((fun (_, kind) => !kind.isLayout) ∘ Prod.map id TokenKind.plain :
      Option Nat × TokenKind → Bool) = fun (_, kind) => !kind.isLayout :=
    funext fun entry => congrArg (!·) (hlayout entry.2)
  rw [contents, List.zip_map_right, List.filter_map, hfilter, contents]
  refine (List.map_congr_left fun entry hentry => ?_).trans (List.map_id _)
  exact congrArg (entry.1, ·) (hplain (List.mem_filter.1 hentry).2)

namespace ElementTree

theorem Builder.run_plain (b : Builder) (i : Nat) (kinds : List TokenKind) :
    b.run i (kinds.map TokenKind.plain) = b.run i kinds := by
  induction kinds generalizing b i with
  | nil => rfl
  | cons kind kinds ih =>
    have hstep : b.step i kind.plain = b.step i kind := by cases kind <;> rfl
    rw [List.map_cons, Builder.run, Builder.run, hstep, ih]

/-- The tokens of a forest make its elements, whatever the widths of their
    indentations. -/
theorem ofKinds_of_plain {kinds : List TokenKind} {forest : Forest}
    (h : kinds.map TokenKind.plain = forest.kinds ∨
      kinds.map TokenKind.plain = .newline :: forest.kinds) :
    looks kinds (ofKinds kinds).nodes = (forest.entries none 0).map lookOf ∧
      contents kinds (ofKinds kinds).owners = ownedOf (forest.entries none 0) := by
  obtain ⟨hlooks, hcontents⟩ := Builder.ofKinds_forest h
  rw [ofKinds, Builder.run_plain, ← ofKinds] at hlooks hcontents
  rw [looks, Element.look_plain, ← looks] at hlooks
  rw [contents_plain] at hcontents
  exact ⟨hlooks, hcontents⟩

end ElementTree

end PugLint
