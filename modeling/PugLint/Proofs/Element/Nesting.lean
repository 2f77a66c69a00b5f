import PugLint.Proofs.Element.Indentation

/-!
# Nesting by indentation

In a template that can be read, elements are nested by the widths of their lines alone: the
first element of a line goes into the nearest narrower line in front of it that has an
element, unless a line between the two is no wider than that one. An element behind a colon
goes into the one in front of it.

* `Headed`: the first elements of lines, and those behind colons;
* `ElementTree.Builder.Traces`: what is known of the elements after each move of the reader;
* `ElementTree.OnLine`, `Encloses`: the line of an element, and the lines around a line;
* `ElementTree.NestedByLines`: how elements are nested by the widths of lines;
* `nestedByLines_tokenize`: the elements of every template are nested in this way.
-/

namespace PugLint

open Lexer

/-! ### The first elements of lines -/

/-- The first tokens of elements. -/
def startsOf (nodes : Array Element) : List Nat :=
  nodes.toList.map Element.token

theorem getElem?_startsOf (nodes : Array Element) (id : Nat) :
    (startsOf nodes)[id]? = nodes[id]?.map Element.token := by
  rw [startsOf, List.getElem?_map, Array.getElem?_toList]

theorem length_startsOf (nodes : Array Element) : (startsOf nodes).length = nodes.size := by
  rw [startsOf, List.length_map, Array.length_toList]

theorem startsOf_eq_map (nodes : Array Element) :
    startsOf nodes = (intervalsOf nodes).map Prod.fst := by
  rw [intervalsOf, List.map_map]
  rfl

/-- A token is a colon. -/
def IsColonAt (tokens : List Token) (i : Nat) : Prop :=
  ∃ token, tokens[i]? = some token ∧ token.kind = .colon

/-- The elements in front of an element are on lines in front of its own, and there is no
    colon in front of it. -/
def LeadsLine (tokens : List Token) (starts : List Nat) (id start : Nat) (line : ContentLine) :
    Prop :=
  (∀ other before, starts[other]? = some before → other < id →
    lineAt tokens before < line.number) ∧
  ∀ i, start = i + 1 → ¬IsColonAt tokens i

/-- There is a colon in front of an element, and the element in front of that one is on the
    same line. -/
def BehindColon (tokens : List Token) (starts : List Nat) (id start : Nat) (line : ContentLine) :
    Prop :=
  ∃ i other before, start = i + 1 ∧ IsColonAt tokens i ∧ id = other + 1 ∧
    starts[other]? = some before ∧ before < i ∧ line.number ≤ lineAt tokens before

section Starts

variable {tokens : List Token} {starts : List Nat} {id start : Nat} {line : ContentLine}

/-- A further element changes nothing for those in front. -/
theorem LeadsLine.concat (h : LeadsLine tokens starts id start line) (hid : id < starts.length)
    (new : Nat) : LeadsLine tokens (starts ++ [new]) id start line := by
  refine ⟨fun other before hother hlt => h.1 other before ?_ hlt, h.2⟩
  rwa [List.getElem?_append_left (Nat.lt_trans hlt hid)] at hother

theorem BehindColon.concat (h : BehindColon tokens starts id start line) (new : Nat) :
    BehindColon tokens (starts ++ [new]) id start line := by
  obtain ⟨i, other, before, hstart, hcolon, hid, hother, hlt, hle⟩ := h
  refine ⟨i, other, before, hstart, hcolon, hid, ?_, hlt, hle⟩
  rw [List.getElem?_append_left (List.getElem?_eq_some_iff.1 hother).1, hother]

end Starts

/-- Every element is the first one on its line, or it stands behind a colon. -/
structure Headed (tokens : List Token) (lines : List ContentLine) (starts : List Nat) : Prop where
  /-- Elements start with content. -/
  content : ∀ start ∈ starts, IsContentAt tokens start
  /-- The place of an element on its line. -/
  place {id start : Nat} {line : ContentLine} (h : starts[id]? = some start)
    (hline : IsLastUpTo lines (lineAt tokens start) line) :
    LeadsLine tokens starts id start line ∨ BehindColon tokens starts id start line

theorem Lexer.Indents.ne_nil {levels levels' : List Nat} {width : Nat} {kinds : List TokenKind}
    (h : Indents levels width kinds levels') : kinds ≠ [] := by
  cases h with
  | deeper | same => exact List.cons_ne_nil _ _
  | outer hne => exact mt (List.replicate_eq_nil_iff _).1 (mt List.length_eq_zero_iff.1 hne)

namespace ElementTree.Builder

/-- Where the builder stands: at the start of a line there is no element on it yet, and in a
    head there is. -/
structure AtHead (tokens : List Token) (lines : List ContentLine) (b : Builder)
    (s : Lexer.State) : Prop where
  /-- In front of the first element of a line. -/
  fresh (h : s.stage = .content ∨ s.stage = .head false ∧ b.afterColon = false) :
    (∀ start ∈ startsOf b.nodes, ∀ line ∈ lines.getLast?, lineAt tokens start < line.number) ∧
      ∀ i, b.owners.size = i + 1 → ¬IsColonAt tokens i
  /-- The element of the line. -/
  current {id start : Nat} (hid : b.current = some id) (h : (startsOf b.nodes)[id]? = some start) :
    ∀ line ∈ lines.getLast?, line.number ≤ lineAt tokens start
  /-- Behind a colon. -/
  colon (h : s.stage = .head false) (hcolon : b.afterColon = true) :
    ∃ i id start, b.owners.size = i + 1 ∧ IsColonAt tokens i ∧ b.current = some id ∧
      (startsOf b.nodes)[id]? = some start ∧ start < i

variable {b c : Builder}

theorem startsOf_openElement (b : Builder) (i : Nat) (name : String) (written : ElementKind)
    (tagToken : Option Nat) :
    startsOf (b.openElement i name written tagToken).nodes = startsOf b.nodes ++ [i] :=
  map_openElement (fun _ _ => rfl) (fun _ _ _ => rfl) ..

theorem Keeps.startsOf_eq (h : b.Keeps c) : startsOf c.nodes = startsOf b.nodes := by
  rw [startsOf_eq_map, h.intervals, ← startsOf_eq_map]

/-- Tokens for the layout of lines add no elements. -/
theorem startsOf_steps_layout {kinds : List TokenKind}
    (h : ∀ kind ∈ kinds, kind.isLayout = true) (b : Builder) (i : Nat) :
    startsOf (b.steps i kinds).nodes = startsOf b.nodes := by
  induction kinds generalizing b i with
  | nil => rfl
  | cons kind kinds ih =>
    obtain ⟨hkind, hkinds⟩ := List.forall_mem_cons.1 h
    rw [steps, ih hkinds]
    cases kind with
    | newline =>
      rw [step]
      split
      · rfl
      · exact map_closeFrom (fun _ _ => rfl) ..
    | indent => rfl
    | outdent | eos => exact map_closeFrom (fun _ _ => rfl) ..
    | _ => cases hkind

theorem Ordered.mem_startsOf_lt (h : b.Ordered) {start : Nat} (hstart : start ∈ startsOf b.nodes) :
    start < b.owners.size := by
  obtain ⟨element, hmem, rfl⟩ := List.mem_map.1 hstart
  obtain ⟨id, hid⟩ := List.mem_iff_getElem?.1 hmem
  exact h.token_lt (Array.getElem?_toList ▸ hid)

section Steps

variable {tokens : List Token} {lines : List ContentLine} {s t : Lexer.State} {piece : Piece}
  {place : Position}

/-- The last line that has been read is the line of the next token. -/
theorem Indented.number_eq {levels : List Nat} {number : Nat} {last line : ContentLine}
    (h : Indented tokens lines b levels number) (hlast : last ∈ lines.getLast?)
    (hline : number ≤ lineAt tokens b.owners.size)
    (hhome : IsLastUpTo lines (lineAt tokens b.owners.size) line) : line.number = last.number := by
  obtain ⟨front, rfl⟩ := List.getLast?_eq_some_iff.1 hlast
  have hmem : last ∈ front ++ [last] := List.mem_append_right _ (List.mem_singleton_self _)
  have hle := hhome.last last hmem (Nat.le_trans (h.le last hmem) hline)
  rcases List.mem_append.1 hhome.mem with hfront | hfront
  · have := (List.pairwise_append.1 h.sorted).2.2 line hfront last (List.mem_singleton_self _)
    omega
  · rw [List.mem_singleton.1 hfront]

/-- A move of the reader. -/
theorem AtHead.effect (h : AtHead tokens lines b s)
    (hindented : Indented tokens lines b s.levels place.line) (heffect : b.Effect s piece t c)
    (hfollows : b.Follows s) (hfollows' : c.Follows t) (hordered : b.Ordered)
    (htokens : StandsAt tokens b.owners.size piece place) :
    AtHead tokens (lines ++ t.meets (place.after piece.text)) c t := by
  cases heffect with
  | idle _ _ _ ht hhead =>
    rw [meets_eq_nil ht, List.append_nil]
    refine ⟨fun hfresh => ?_, h.current, fun hstage hcolon => ?_⟩
    · exact h.fresh (.inl (hfresh.elim (absurd · ht) fun hfresh => hhead hfresh.1))
    · have := hfollows.stage
      rw [hhead hstage] at this
      rw [this.2.2.2] at hcolon
      cases hcolon
  | opens hkinds _ _ _ ht name written tagToken =>
    -- The new element is the one of the line that was met last.
    obtain ⟨_, _, _, hle, _⟩ := htokens.token hkinds
    rw [meets_eq_nil (by simp [ht]), List.append_nil]
    refine ⟨?_, ?_, ?_⟩
    · rw [ht]
      rintro (hfresh | ⟨hfresh, _⟩) <;> cases hfresh
    · intro id start hid hstart line hline
      cases hid
      rw [startsOf_openElement, ← length_startsOf, List.getElem?_concat_length] at hstart
      cases hstart
      exact Nat.le_trans (hindented.le line (List.mem_of_getLast? hline)) hle
    · simp [ht]
  | colon hkinds _ hs ht hkeeps hcolon =>
    -- The colon is the last token so far, behind the element of the line.
    obtain ⟨token, hat, hkind, _⟩ := htokens.token hkinds
    rw [meets_eq_nil (by simp [ht]), List.append_nil]
    refine ⟨?_, ?_, fun _ _ => ?_⟩
    · rw [ht, hcolon]
      rintro (hfresh | ⟨_, hfresh⟩) <;> cases hfresh
    · rw [hkeeps.startsOf_eq, hkeeps.current]
      exact h.current
    · have hstage := hfollows.stage
      rw [hs] at hstage
      obtain ⟨id, hid⟩ := Option.isSome_iff_exists.1 hstage.2.1
      have hlt : id < (startsOf b.nodes).length := by
        have := (hordered.current id hid).1
        rw [length_startsOf]
        omega
      refine ⟨b.owners.size, id, _, hkeeps.size, ⟨token, hat, hkind⟩, hkeeps.current.trans hid,
        ?_, hordered.mem_startsOf_lt (List.getElem_mem hlt)⟩
      rw [hkeeps.startsOf_eq]
      exact List.getElem?_eq_getElem hlt
  | keeps _ _ _ ht ht' hkeeps =>
    rw [meets_eq_nil ht, List.append_nil]
    refine ⟨?_, ?_, fun hstage => absurd hstage ht'⟩
    · rintro (hfresh | ⟨hfresh, _⟩)
      · exact absurd hfresh ht
      · exact absurd hfresh ht'
    · rw [hkeeps.startsOf_eq, hkeeps.current]
      exact h.current
  | next hindents _ ht hlines hwritten hbehind =>
    -- All elements so far stand in front of the new line.
    have hstarts := startsOf_steps_layout hindents.isLayout_eq_true b b.owners.size
    have hstage := hfollows'.stage
    rw [ht] at hstage
    refine ⟨fun _ => ⟨?_, ?_⟩, ?_, ?_⟩
    · rw [hstarts, State.meets, if_pos ht, List.getLast?_concat]
      rintro start hstart line ⟨⟩
      exact Nat.lt_of_le_of_lt (hindented.lineAt_le start (hordered.mem_startsOf_lt hstart))
        (lt_line_after_next hlines)
    · intro i hi
      rintro ⟨token, htoken, hkind⟩
      rw [(hordered.steps piece.kinds).2] at hi
      have hpos := List.length_pos_iff.2 hindents.ne_nil
      obtain ⟨other, hother, hlayout, _⟩ :=
        htokens.layout hindents.isLayout_eq_true (i := i) (by omega) (by omega)
      cases htoken.symm.trans hother
      rw [hkind] at hlayout
      cases hlayout
    · intro id start hid
      rw [hstage.2.1] at hid
      cases hid
    · simp [ht]

/-- A move of the reader keeps elements at the heads of lines or behind colons. -/
theorem headed_effect (h : Headed tokens lines (startsOf b.nodes)) (hhead : AtHead tokens lines b s)
    (hindented : Indented tokens lines b s.levels place.line) (heffect : b.Effect s piece t c)
    (hordered : b.Ordered) (htokens : StandsAt tokens b.owners.size piece place) :
    Headed tokens (lines ++ t.meets (place.after piece.text)) (startsOf c.nodes) := by
  cases heffect with
  | idle _ _ _ ht => rwa [meets_eq_nil ht, List.append_nil]
  | colon _ _ _ ht hkeeps =>
    rwa [meets_eq_nil (by simp [ht]), List.append_nil, hkeeps.startsOf_eq]
  | keeps _ _ _ ht _ hkeeps => rwa [meets_eq_nil ht, List.append_nil, hkeeps.startsOf_eq]
  | next hindents _ ht hlines =>
    rw [startsOf_steps_layout hindents.isLayout_eq_true, State.meets, if_pos ht]
    refine ⟨h.content, fun {id start line} hid hline => ?_⟩
    have hlt : lineAt tokens start < (place.after piece.text).line :=
      Nat.lt_of_le_of_lt
        (hindented.lineAt_le start (hordered.mem_startsOf_lt (List.mem_of_getElem? hid)))
        (lt_line_after_next hlines)
    exact h.place hid ((isLastUpTo_concat hlt).1 hline)
  | opens hkinds hkind _ hs ht =>
    obtain ⟨token, hat, rfl, hle, _⟩ := htokens.token hkinds
    rw [meets_eq_nil (by simp [ht]), List.append_nil, startsOf_openElement]
    refine ⟨List.forall_mem_append.2 ⟨h.content, ?_⟩, fun {id start line} hid hline => ?_⟩
    · exact List.forall_mem_singleton.2 ⟨token, hat, hkind⟩
    rcases Nat.lt_or_ge id (startsOf b.nodes).length with hlt | hge
    · rw [List.getElem?_append_left hlt] at hid
      exact (h.place hid hline).imp (·.concat hlt _) (·.concat _)
    · -- The new element is on the last line.
      obtain rfl : id = (startsOf b.nodes).length := by
        have := (List.getElem?_eq_some_iff.1 hid).1
        rw [List.length_append, List.length_singleton] at this
        omega
      rw [List.getElem?_concat_length] at hid
      cases hid
      obtain ⟨last, hlast⟩ : ∃ last, lines.getLast? = some last :=
        ⟨_, List.getLast?_eq_some_getLast (List.ne_nil_of_mem hline.mem)⟩
      have hnumber := hindented.number_eq hlast hle hline
      have hleads (hfresh : s.stage = .content ∨ s.stage = .head false ∧ b.afterColon = false) :
          LeadsLine tokens (startsOf b.nodes ++ [b.owners.size]) (startsOf b.nodes).length
            b.owners.size line := by
        obtain ⟨hbefore, hcolon⟩ := hhead.fresh hfresh
        refine ⟨fun other before hother hlt => ?_, hcolon⟩
        rw [List.getElem?_append_left hlt] at hother
        rw [hnumber]
        exact hbefore before (List.mem_of_getElem? hother) last hlast
      rcases hs with hs | hs
      · exact .inl (hleads (.inl hs))
      · cases hcolon : b.afterColon with
        | false => exact .inl (hleads (.inr ⟨hs, hcolon⟩))
        | true =>
          obtain ⟨i, other, before, hsize, hat, hcurrent, hbefore, hlt⟩ := hhead.colon hs hcolon
          refine .inr ⟨i, other, before, hsize, hat, ?_, ?_, hlt, ?_⟩
          · rw [length_startsOf]
            exact (hordered.current other hcurrent).1.symm
          · rw [List.getElem?_append_left (List.getElem?_eq_some_iff.1 hbefore).1, hbefore]
          · rw [hnumber]
            exact hhead.current hcurrent hbefore last hlast

/-! ### All moves -/

/-- What is known of the elements after the tokens up to a place. -/
structure Traces (tokens : List Token) (lines : List ContentLine) (b : Builder)
    (s : Lexer.State) (place : Position) : Prop where
  /-- Where the reader stands. -/
  follows : b.Follows s
  /-- The order of the elements. -/
  ordered : b.Ordered
  /-- The tokens of the elements. -/
  indented : Indented tokens lines b s.levels place.line
  /-- The element of the line. -/
  atHead : AtHead tokens lines b s
  /-- The elements of all lines. -/
  headed : Headed tokens lines (startsOf b.nodes)
  /-- Only in front of the first line with content is there no line. -/
  ne_nil : lines ≠ [] ∨ s.stage = .lineEnd false

theorem Traces.move {rest : List Char} (h : Traces tokens lines b s place)
    (hmove : Move s piece rest t) (hs : s.stage ≠ .start) (ht : t.stage ≠ .done)
    (htokens : StandsAt tokens b.owners.size piece place) :
    Traces tokens (lines ++ t.meets (place.after piece.text))
      (b.steps b.owners.size piece.kinds) t (place.after piece.text) := by
  have heffect := h.follows.effect hmove hs ht
  have hfollows := h.follows.move hmove b.owners.size
  refine ⟨hfollows, (h.ordered.steps _).1, ?_, ?_, ?_, ?_⟩
  · exact h.indented.effect heffect h.follows h.ordered h.ne_nil htokens
  · exact h.atHead.effect h.indented heffect h.follows hfollows h.ordered htokens
  · exact headed_effect h.headed h.atHead h.indented heffect h.ordered htokens
  · rcases h.ne_nil with hne | hstage
    · exact .inl (List.append_ne_nil_of_left_ne_nil hne _)
    · generalize b.steps b.owners.size piece.kinds = c at heffect
      cases heffect with
      | idle _ _ hs | keeps _ _ hs => exact absurd hstage hs
      | opens _ _ _ hs =>
        rw [hstage] at hs
        rcases hs with hs | hs <;> cases hs
      | colon _ _ hs =>
        rw [hstage] at hs
        cases hs
      | next _ _ ht =>
        rw [State.meets, if_pos ht]
        exact .inl (List.append_ne_nil_of_right_ne_nil _ (List.cons_ne_nil _ _))

/-- In front of all tokens no element has been met. -/
theorem atHead_start (lines : List ContentLine) (s : Lexer.State) :
    AtHead tokens lines Builder.start s where
  fresh _ := ⟨List.forall_mem_nil _, nofun⟩
  current := nofun
  colon := nofun

theorem headed_start (tokens : List Token) (lines : List ContentLine) :
    Headed tokens lines (startsOf Builder.start.nodes) where
  content := List.forall_mem_nil _
  place := nofun

theorem indented_start {number : Nat}
    (hsorted : lines.Pairwise fun line other => line.number < other.number)
    (hle : ∀ line ∈ lines, line.number ≤ number)
    (hwidth : ∀ line ∈ lines.getLast?, line.width = 0) :
    Indented tokens lines Builder.start [] number where
  levelled := .nil
  level_le := List.forall_mem_nil _
  widths := List.pairwise_singleton _ _
  sorted := hsorted
  le := hle
  lineAt_le := nofun
  width := hwidth
  fits := nofun

/-- In front of all tokens. -/
theorem traces_start {stage : Stage} (h : stage = .lineEnd false ∨ stage = .content) :
    Traces tokens (State.meets ⟨stage, []⟩ place) Builder.start ⟨stage, []⟩ place := by
  rcases h with rfl | rfl
  · rw [meets_eq_nil (by simp)]
    exact ⟨⟨rfl, rfl⟩, Ordered.start,
      indented_start .nil (List.forall_mem_nil _) (by simp),
      atHead_start _ _, headed_start _ _, .inr rfl⟩
  · rw [State.meets, if_pos rfl]
    refine ⟨⟨rfl, rfl, rfl, rfl, rfl⟩, Ordered.start, indented_start ?_ ?_ ?_,
      atHead_start _ _, headed_start _ _, .inl (List.cons_ne_nil _ _)⟩
    · exact List.pairwise_singleton _ _
    · exact List.forall_mem_singleton.2 (Nat.le_refl _)
    · rintro line ⟨⟩
      rfl

theorem kinds_of_done {rest : List Char} (h : Move s piece rest t) (ht : t.stage = .done) :
    piece.kinds = List.replicate s.levels.length .outdent ++ [.eos] := by
  cases h with
  | start =>
    dsimp only at ht
    split at ht <;> cases ht
  | finish => rfl
  | _ => cases ht

/-- After all tokens, the elements are told by the lines. -/
theorem Traces.outlined {pieces : List Piece} {later : List ContentLine} {before : List Token}
    (h : Traces tokens lines b s place) (houtlined : Outlined s place pieces later)
    (hs : s.stage ≠ .start) (hdone : s.stage ≠ .done)
    (htokens : tokens = before ++ tokensFrom place pieces) (hsize : b.owners.size = before.length) :
    (b.steps b.owners.size (pieces.flatMap Piece.kinds)).stack = [] ∧
      (lines ++ later).Pairwise (fun line other => line.number < other.number) ∧
      Settled tokens (lines ++ later) (b.steps b.owners.size (pieces.flatMap Piece.kinds)) ∧
      Headed tokens (lines ++ later)
        (startsOf (b.steps b.owners.size (pieces.flatMap Piece.kinds)).nodes) := by
  induction houtlined generalizing lines b before with
  | done hstage => exact absurd hstage hdone
  | @move s t place piece pieces later hmove houtlined ih =>
    have hstands : StandsAt tokens b.owners.size piece place := by
      intro i token htoken
      have hi := (List.getElem?_eq_some_iff.1 htoken).1
      rw [htokens, hsize, List.getElem?_append_right (Nat.le_add_right _ _), tokensFrom,
        Nat.add_sub_cancel_left, List.getElem?_append_left hi, htoken]
    have hlength : (piece.tokens place).length = piece.kinds.length := List.length_map _
    rw [List.flatMap_cons, steps_append]
    by_cases ht : t.stage = .done
    · -- The last move.
      have hkinds := kinds_of_done hmove ht
      have hlayout : ∀ kind ∈ piece.kinds, kind.isLayout = true := by
        rw [hkinds]
        refine List.forall_mem_append.2 ⟨fun kind hkind => ?_, List.forall_mem_singleton.2 rfl⟩
        exact List.eq_of_mem_replicate hkind ▸ rfl
      cases houtlined with
      | move hmove' => exact absurd ht hmove'.ne_done
      | done =>
        rw [meets_eq_nil (by simp [ht]), List.append_nil, List.append_nil, List.flatMap_nil,
          steps, startsOf_steps_layout hlayout, hkinds]
        have hshuts := shuts_finish s.levels.length h.indented.levelled h.ordered
        refine ⟨?_, h.indented.sorted, h.indented.finish hshuts ?_, h.headed⟩
        · rw [hshuts.stack, List.filter_eq_nil_iff]
          simp
        rintro i hge ⟨token, htoken, hcontent⟩
        have hlt : i < b.owners.size + piece.kinds.length := by
          have := (List.getElem?_eq_some_iff.1 htoken).1
          rwa [htokens, tokensFrom, tokensFrom, List.append_nil, List.length_append, hlength,
            ← hsize] at this
        obtain ⟨other, hother, hother', _⟩ := hstands.layout hlayout hge hlt
        cases htoken.symm.trans hother
        rw [hother'] at hcontent
        cases hcontent
    · have hsize' := (h.ordered.steps piece.kinds).2
      have htokens' : tokens = (before ++ piece.tokens place) ++
          tokensFrom (place.after piece.text) pieces := by
        rw [htokens, tokensFrom, List.append_assoc]
      have hnext := ih (h.move hmove hs ht hstands) hmove.ne_start ht htokens'
        (by rw [hsize', List.length_append, hlength, hsize])
      rwa [List.append_assoc, hsize'] at hnext

end Steps

end ElementTree.Builder

/-! ### Lines around lines -/

/-- A line with a line behind it that is wider, as are all lines between the two. -/
structure Encloses (lines : List ContentLine) (outer inner : ContentLine) : Prop where
  /-- It is one of the lines. -/
  mem : outer ∈ lines
  /-- The other line stands behind. -/
  before : outer.number < inner.number
  /-- The other line is wider. -/
  narrower : outer.width < inner.width
  /-- So are all lines up to that line. -/
  between : ∀ line ∈ lines, outer.number < line.number → line.number ≤ inner.number →
    ¬line.width ≤ outer.width

namespace ElementTree

/-- An element is written on a line. -/
def OnLine (tree : ElementTree) (tokens : List Token) (lines : List ContentLine) (id : Nat)
    (line : ContentLine) : Prop :=
  ∃ element, tree.nodes[id]? = some element ∧ IsLastUpTo lines (lineAt tokens element.token) line

/-- The last of the lines around a line that have an element. -/
structure IsNearest (tree : ElementTree) (tokens : List Token) (lines : List ContentLine)
    (inner outer : ContentLine) : Prop where
  /-- It is around the line. -/
  encloses : Encloses lines outer inner
  /-- It has an element. -/
  carries : ∃ id, tree.OnLine tokens lines id outer
  /-- No such line stands behind it. -/
  last : ∀ other, Encloses lines other inner → (∃ id, tree.OnLine tokens lines id other) →
    other.number ≤ outer.number

/-- The elements are nested as the lines with content are indented. -/
structure NestedByLines (tree : ElementTree) (tokens : List Token) (lines : List ContentLine) :
    Prop where
  /-- Every element is on a line, as the first one or behind a colon. -/
  line {id : Nat} {element : Element} (h : tree.nodes[id]? = some element) :
    ∃ line, tree.OnLine tokens lines id line ∧
      ((∀ other < id, ¬tree.OnLine tokens lines other line) ∨
        ∃ i, element.token = i + 1 ∧ IsColonAt tokens i)
  /-- The first element of a line goes into the last element of the nearest line around. -/
  parent {id : Nat} {element : Element} {line : ContentLine} (h : tree.nodes[id]? = some element)
    (hline : tree.OnLine tokens lines id line)
    (hfirst : ∀ other < id, ¬tree.OnLine tokens lines other line) (p : Nat) :
    element.parent = some p ↔ ∃ outer, tree.IsNearest tokens lines line outer ∧
      IsGreatest {q | tree.OnLine tokens lines q outer} p
  /-- It is a root where there is no such line. -/
  root {id : Nat} {element : Element} {line : ContentLine} (h : tree.nodes[id]? = some element)
    (hline : tree.OnLine tokens lines id line)
    (hfirst : ∀ other < id, ¬tree.OnLine tokens lines other line) :
    element.parent = none ↔ ∀ outer, Encloses lines outer line →
      ∀ q, ¬tree.OnLine tokens lines q outer
  /-- An element behind a colon goes into the one in front of the colon, which is on the
      same line. -/
  colon {id i : Nat} {element : Element} (h : tree.nodes[id]? = some element)
    (htoken : element.token = i + 1) (hcolon : IsColonAt tokens i) :
    ∃ p, element.parent = some p ∧
      IsGreatest {q | ∃ before, tree.nodes[q]? = some before ∧ before.token < i} p ∧
      ∀ line, tree.OnLine tokens lines id line ↔ tree.OnLine tokens lines p line
  /-- Every line, with or without elements, ends the elements of lines that are no narrower. -/
  ends {id i : Nat} {element : Element} {line : ContentLine} (h : tree.nodes[id]? = some element)
    (hline : tree.OnLine tokens lines id line) (hcontent : IsContentAt tokens i)
    (hstart : element.token ≤ i) :
    i < element.endToken ↔ ∀ other ∈ lines, line.number < other.number →
      other.number ≤ lineAt tokens i → ¬other.width ≤ line.width

section Lines

variable {tree : ElementTree} {tokens : List Token} {lines : List ContentLine} {count : Nat}
  {id : Nat} {element : Element}

/-- The parent of an element is the greatest other element that has its first token. -/
theorem parent_eq_some_iff (hnested : tree.Nested count) (hconsistent : tree.Consistent)
    (hpreorder : InPreorder (parentsOf tree.nodes)) (h : tree.nodes[id]? = some element) (p : Nat) :
    element.parent = some p ↔ IsGreatest {a | a ≠ id ∧ tree.Spans a element.token} p := by
  have hset : {a | a ≠ id ∧ tree.Spans a element.token} =
      {a | IsAncestor (parentsOf tree.nodes) a id} := by
    ext a
    constructor
    · rintro ⟨hne, outer, houter, hspan⟩
      rw [Set.mem_ofPred_eq, ← hconsistent.mem_descendants houter,
        hnested.mem_descendants houter]
      exact ⟨hne.symm, element, h, hspan⟩
    · intro hanc
      obtain ⟨outer, houter⟩ : ∃ outer, tree.nodes[a]? = some outer := by
        have hlt := Nat.lt_trans (hpreorder.ancestor_lt hanc) hanc.lt_length
        rw [length_parentsOf] at hlt
        exact ⟨_, Array.getElem?_eq_getElem hlt⟩
      rw [Set.mem_ofPred_eq, ← hconsistent.mem_descendants houter,
        hnested.mem_descendants houter] at hanc
      obtain ⟨hne, inner, hinner, hspan⟩ := hanc
      cases h.symm.trans hinner
      exact ⟨hne.symm, outer, houter, hspan⟩
  have hparent (p : Nat) : element.parent = some p ↔ IsParent (parentsOf tree.nodes) p id := by
    rw [isParent_iff]
    constructor
    · exact fun hp => ⟨element, h, hp⟩
    · rintro ⟨other, hother, hp⟩
      cases h.symm.trans hother
      exact hp
  have hgreatest {p : Nat} (hp : IsParent (parentsOf tree.nodes) p id) :
      IsGreatest {a | IsAncestor (parentsOf tree.nodes) a id} p := by
    refine ⟨.of_isParent hp, fun a ha => ?_⟩
    obtain ⟨q, hq, rfl | hanc⟩ := isAncestor_iff.1 ha
    · exact Nat.le_of_eq (hq.eq hp)
    · exact Nat.le_of_lt (hq.eq hp ▸ hpreorder.ancestor_lt hanc)
  rw [hparent, hset]
  refine ⟨hgreatest, fun hp => ?_⟩
  obtain ⟨q, hq, _⟩ := isAncestor_iff.1 hp.1
  rwa [hp.unique (hgreatest hq)]

end Lines

/-- What the tokens tell of the elements on the lines of a template. -/
structure Lined (tree : ElementTree) (tokens : List Token) (lines : List ContentLine) : Prop where
  /-- The intervals of elements. -/
  nested : tree.Nested tokens.length
  /-- The links between elements. -/
  consistent : tree.Consistent
  /-- The order of elements. -/
  preorder : InPreorder (parentsOf tree.nodes)
  /-- The order of tokens. -/
  lineAt_le {i j : Nat} (hij : i ≤ j) (hj : j < tokens.length) :
    lineAt tokens i ≤ lineAt tokens j
  /-- The order of lines. -/
  sorted : lines.Pairwise fun line other => line.number < other.number
  /-- Where elements start. -/
  headed : Headed tokens lines (startsOf tree.nodes)
  /-- How long elements stay open. -/
  settled {id : Nat} {element : Element} (h : tree.nodes[id]? = some element) :
    ∃ line, IsLastUpTo lines (lineAt tokens element.token) line ∧
      ∀ i, element.token ≤ i → IsContentAt tokens i →
        (i < element.endToken ↔ StaysDeeper lines line (lineAt tokens i))

namespace Lined

variable {tree : ElementTree} {tokens : List Token} {lines : List ContentLine} {a id i : Nat}
  {outer element : Element} {line other : ContentLine}

theorem eq_of_number_eq (h : tree.Lined tokens lines) (hline : line ∈ lines)
    (hother : other ∈ lines) (heq : line.number = other.number) : line = other := by
  have hne : lines.Pairwise fun line other => line.number ≠ other.number :=
    h.sorted.imp fun hlt => Nat.ne_of_lt hlt
  have : Std.Symm fun line other : ContentLine => line.number ≠ other.number :=
    ⟨fun _ _ hne => hne.symm⟩
  by_contra hdiff
  exact hne.forall hline hother hdiff heq

/-- An element is on one line only. -/
theorem eq_of_onLine (h : tree.Lined tokens lines) (hline : tree.OnLine tokens lines id line)
    (hother : tree.OnLine tokens lines id other) : line = other := by
  obtain ⟨element, hid, hlast⟩ := hline
  obtain ⟨element', hid', hlast'⟩ := hother
  cases hid.symm.trans hid'
  refine h.eq_of_number_eq hlast.mem hlast'.mem (Nat.le_antisymm ?_ ?_)
  · exact hlast'.last line hlast.mem hlast.le
  · exact hlast.last other hlast'.mem hlast'.le

theorem mem_startsOf (hid : tree.nodes[id]? = some element) :
    (startsOf tree.nodes)[id]? = some element.token := by
  rw [getElem?_startsOf, hid]
  rfl

theorem isContentAt (h : tree.Lined tokens lines) (hid : tree.nodes[id]? = some element) :
    IsContentAt tokens element.token :=
  h.headed.content _ (List.mem_of_getElem? (mem_startsOf hid))

theorem token_lt (h : tree.Lined tokens lines) (hid : tree.nodes[id]? = some element) :
    element.token < tokens.length := by
  obtain ⟨token, htoken, _⟩ := h.isContentAt hid
  exact (List.getElem?_eq_some_iff.1 htoken).1

/-- An element has a token with content as long as the lines are wider than its own. -/
theorem lt_endToken_iff (h : tree.Lined tokens lines) (hid : tree.nodes[id]? = some element)
    (hline : tree.OnLine tokens lines id line) (hcontent : IsContentAt tokens i)
    (hstart : element.token ≤ i) :
    i < element.endToken ↔ StaysDeeper lines line (lineAt tokens i) := by
  obtain ⟨home, hhome, hends⟩ := h.settled hid
  rw [h.eq_of_onLine hline ⟨element, hid, hhome⟩]
  exact hends i hstart hcontent

/-- Elements in front are on lines in front or on the same line. -/
theorem number_le (h : tree.Lined tokens lines) (ha : tree.OnLine tokens lines a other)
    (hid : tree.OnLine tokens lines id line) (hle : a ≤ id) : other.number ≤ line.number := by
  obtain ⟨outer, houter, hother⟩ := ha
  obtain ⟨element, helement, hline⟩ := hid
  have htoken : outer.token ≤ element.token := by
    rcases Nat.lt_or_eq_of_le hle with hlt | rfl
    · exact Nat.le_of_lt (h.consistent.increasing houter helement hlt)
    · cases houter.symm.trans helement
      exact Nat.le_refl _
  refine hline.last other hother.mem (Nat.le_trans hother.le ?_)
  exact h.lineAt_le htoken (h.token_lt helement)

/-- The first element of a line is in the elements of the lines around. -/
theorem spans_iff (h : tree.Lined tokens lines) (hid : tree.nodes[id]? = some element)
    (hline : tree.OnLine tokens lines id line)
    (hfirst : ∀ other < id, ¬tree.OnLine tokens lines other line) :
    a ≠ id ∧ tree.Spans a element.token ↔
      ∃ outer, Encloses lines outer line ∧ tree.OnLine tokens lines a outer := by
  obtain ⟨found, hfound, hhome⟩ := hline
  cases hid.symm.trans hfound
  have hline : tree.OnLine tokens lines id line := ⟨element, hid, hhome⟩
  constructor
  · rintro ⟨hne, inside, ha, hstart, hend⟩
    obtain ⟨other, hother, _⟩ := h.settled ha
    have hother : tree.OnLine tokens lines a other := ⟨inside, ha, hother⟩
    have hlt : a < id := by
      refine Nat.lt_of_le_of_ne (Nat.not_lt.1 fun hlt => ?_) hne
      exact Nat.not_le.2 (h.consistent.increasing hid ha hlt) hstart
    have hdeeper := (h.lt_endToken_iff ha hother (h.isContentAt hid) hstart).1 hend
    have hmem : other ∈ lines := hother.choose_spec.2.mem
    have hbefore : other.number < line.number := by
      refine Nat.lt_of_le_of_ne (h.number_le hother hline (Nat.le_of_lt hlt)) fun heq => ?_
      exact hfirst a hlt (h.eq_of_number_eq hmem hhome.mem heq ▸ hother)
    refine ⟨other, ⟨hmem, hbefore, hdeeper line hhome.mem hbefore hhome.le, ?_⟩, hother⟩
    intro between hbetween hlt hle
    exact Nat.not_le.2 (hdeeper between hbetween hlt (Nat.le_trans hle hhome.le))
  · rintro ⟨other, hencloses, hother⟩
    have hlt : a < id := by
      by_contra hge
      have := h.number_le hline hother (Nat.not_lt.1 hge)
      have := hencloses.before
      omega
    obtain ⟨inside, ha, hplace⟩ := hother
    have hstart := Nat.le_of_lt (h.consistent.increasing ha hid hlt)
    refine ⟨Nat.ne_of_lt hlt, inside, ha, hstart, ?_⟩
    rw [h.lt_endToken_iff ha ⟨inside, ha, hplace⟩ (h.isContentAt hid) hstart]
    intro between hbetween hlt hle
    exact Nat.not_le.1 (hencloses.between between hbetween hlt (hhome.last between hbetween hle))

/-- The first element of a line and the elements around it. -/
theorem parent_iff (h : tree.Lined tokens lines) (hid : tree.nodes[id]? = some element)
    (hline : tree.OnLine tokens lines id line)
    (hfirst : ∀ other < id, ¬tree.OnLine tokens lines other line) (p : Nat) :
    element.parent = some p ↔
      IsGreatest {a | ∃ outer, Encloses lines outer line ∧ tree.OnLine tokens lines a outer} p := by
  rw [parent_eq_some_iff h.nested h.consistent h.preorder hid]
  simp only [h.spans_iff hid hline hfirst]

/-- The greatest of the elements on lines around is the last one on the nearest line. -/
theorem isGreatest_iff (h : tree.Lined tokens lines) (line : ContentLine) (p : Nat) :
    IsGreatest {a | ∃ outer, Encloses lines outer line ∧ tree.OnLine tokens lines a outer} p ↔
      ∃ outer, tree.IsNearest tokens lines line outer ∧
        IsGreatest {q | tree.OnLine tokens lines q outer} p := by
  constructor
  · rintro ⟨⟨outer, hencloses, hp⟩, hgreatest⟩
    refine ⟨outer, ⟨hencloses, ⟨p, hp⟩, ?_⟩, hp, fun q hq => hgreatest ⟨outer, hencloses, hq⟩⟩
    rintro other hother ⟨q, hq⟩
    exact h.number_le hq hp (hgreatest ⟨other, hother, hq⟩)
  · rintro ⟨outer, hnearest, hp, hgreatest⟩
    refine ⟨⟨outer, hnearest.encloses, hp⟩, ?_⟩
    rintro q ⟨other, hother, hq⟩
    -- An element behind the last one of the nearest line is on that line as well.
    by_contra hlt
    have hle := h.number_le hp hq (Nat.le_of_lt (Nat.not_le.1 hlt))
    have hge := hnearest.last other hother ⟨q, hq⟩
    have heq := h.eq_of_number_eq hother.mem hnearest.encloses.mem (Nat.le_antisymm hge hle)
    exact hlt (hgreatest (heq ▸ hq))

/-- Where elements are on lines around, there is a greatest one. -/
theorem exists_isGreatest (h : ∃ a outer, Encloses lines outer line ∧
    tree.OnLine tokens lines a outer) :
    ∃ p, IsGreatest
      {a | ∃ outer, Encloses lines outer line ∧ tree.OnLine tokens lines a outer} p := by
  have hbound : BddAbove
      {a | ∃ outer, Encloses lines outer line ∧ tree.OnLine tokens lines a outer} := by
    refine ⟨tree.nodes.size, ?_⟩
    rintro a ⟨_, _, element, helement, _⟩
    exact Nat.le_of_lt (Array.getElem?_eq_some_iff.1 helement).1
  exact ⟨_, Nat.sSup_mem h hbound, fun _ => le_csSup hbound⟩

/-- An element behind a colon. -/
theorem colon (h : tree.Lined tokens lines) (hid : tree.nodes[id]? = some element)
    (htoken : element.token = i + 1) (hcolon : IsColonAt tokens i) :
    ∃ p, element.parent = some p ∧
      IsGreatest {q | ∃ before, tree.nodes[q]? = some before ∧ before.token < i} p ∧
      ∀ line, tree.OnLine tokens lines id line ↔ tree.OnLine tokens lines p line := by
  obtain ⟨line, hhome, _⟩ := h.settled hid
  have hline : tree.OnLine tokens lines id line := ⟨element, hid, hhome⟩
  rcases h.headed.place (mem_startsOf hid) hhome with hleads | hbehind
  · exact absurd hcolon (hleads.2 i htoken)
  obtain ⟨j, p, start, hstart, _, rfl, hbefore, hlt, hnumber⟩ := hbehind
  obtain rfl : i = j := Nat.succ.inj (htoken.symm.trans hstart)
  obtain ⟨before, hp, rfl⟩ : ∃ before, tree.nodes[p]? = some before ∧ before.token = start := by
    rw [getElem?_startsOf] at hbefore
    exact Option.map_eq_some_iff.1 hbefore
  have hstart' : before.token ≤ element.token := by omega
  -- Both are on the same line, as no line starts between them.
  have hsame : tree.OnLine tokens lines p line := by
    refine ⟨before, hp, hhome.mem, hnumber, fun other hother hle => hhome.last other hother ?_⟩
    exact Nat.le_trans hle (h.lineAt_le hstart' (h.token_lt hid))
  refine ⟨p, ?_, ⟨⟨before, hp, hlt⟩, ?_⟩, fun other => ?_⟩
  · rw [parent_eq_some_iff h.nested h.consistent h.preorder hid]
    refine ⟨⟨Nat.ne_of_lt (Nat.lt_succ_self p), before, hp, hstart', ?_⟩, ?_⟩
    · rw [h.lt_endToken_iff hp hsame (h.isContentAt hid) hstart']
      intro other hother hbehind hle
      exact absurd (hhome.last other hother hle) (Nat.not_le.2 hbehind)
    · rintro q ⟨hne, outer, hq, hle, _⟩
      by_contra hgt
      have hlt : p + 1 < q := by omega
      exact Nat.not_le.2 (h.consistent.increasing hid hq hlt) hle
  · rintro q ⟨outer, hq, hqlt⟩
    by_contra hgt
    have hle : p + 1 ≤ q := by omega
    rcases Nat.lt_or_eq_of_le hle with hlt | rfl
    · have := h.consistent.increasing hid hq hlt
      omega
    · cases hid.symm.trans hq
      omega
  · constructor
    · exact fun hother => h.eq_of_onLine hline hother ▸ hsame
    · exact fun hother => h.eq_of_onLine hsame hother ▸ hline

theorem nestedByLines (h : tree.Lined tokens lines) : tree.NestedByLines tokens lines where
  line {id element} hid := by
    obtain ⟨line, hhome, _⟩ := h.settled hid
    refine ⟨line, ⟨element, hid, hhome⟩, ?_⟩
    refine (h.headed.place (mem_startsOf hid) hhome).imp (fun hleads => ?_) fun hbehind => ?_
    · rintro other hlt ⟨before, hbefore, hplace⟩
      exact Nat.not_le.2 (hleads.1 other _ (mem_startsOf hbefore) hlt) hplace.le
    · obtain ⟨i, _, _, htoken, hcolon, _⟩ := hbehind
      exact ⟨i, htoken, hcolon⟩
  parent hid hline hfirst p := (h.parent_iff hid hline hfirst p).trans (h.isGreatest_iff _ p)
  root {id element line} hid hline hfirst := by
    have hparent := h.parent_iff hid hline hfirst
    constructor
    · intro hnone outer hencloses q hq
      obtain ⟨p, hp⟩ := exists_isGreatest ⟨q, outer, hencloses, hq⟩
      rw [← hparent, hnone] at hp
      cases hp
    · intro hnone
      cases hsome : element.parent with
      | none => rfl
      | some p =>
        obtain ⟨⟨outer, hencloses, hp⟩, _⟩ := (hparent p).1 hsome
        exact absurd hp (hnone outer hencloses p)
  colon := h.colon
  ends hid hline hcontent hstart := by
    rw [h.lt_endToken_iff hid hline hcontent hstart]
    simp only [StaysDeeper, Nat.not_le]

end Lined

end ElementTree

/-! ### Templates -/

theorem pairwise_tokensFrom (place : Position) (pieces : List Piece) :
    (tokensFrom place pieces).Pairwise fun token other =>
      token.span.start.line ≤ other.span.start.line := by
  induction pieces generalizing place with
  | nil => exact .nil
  | cons piece pieces ih =>
    refine List.pairwise_append.2 ⟨?_, ih _, fun token htoken other hother => ?_⟩
    · exact List.pairwise_map.2 (List.pairwise_of_forall fun _ _ => Nat.le_refl _)
    · obtain ⟨_, _, hle, hstop⟩ := Piece.bounds_of_mem_tokens htoken
      exact Nat.le_trans hle (Nat.le_trans hstop (line_le_of_mem_tokensFrom hother))

theorem lineAt_mono {tokens : List Token} (h : tokens.Pairwise fun token other =>
    token.span.start.line ≤ other.span.start.line) {i j : Nat} (hij : i ≤ j)
    (hj : j < tokens.length) : lineAt tokens i ≤ lineAt tokens j := by
  rcases Nat.lt_or_eq_of_le hij with hlt | rfl
  · have hi := Nat.lt_trans hlt hj
    rw [lineAt, lineAt, List.getElem?_eq_getElem hi, List.getElem?_eq_getElem hj]
    exact List.pairwise_iff_getElem.1 h i j hi hj hlt
  · exact Nat.le_refl _

/-- The elements of the tokens along a path, and the lines that it meets. -/
theorem ElementTree.lined_ofKinds {pieces : List Piece} {lines : List ContentLine}
    (h : Outlined ⟨.start, []⟩ .first pieces lines)
    (heos : .eos ∉ ((tokensFrom .first pieces).map Token.kind).dropLast) :
    (ofKinds ((tokensFrom .first pieces).map Token.kind)).Lined (tokensFrom .first pieces)
      lines := by
  have hordered := ordered_run ((tokensFrom .first pieces).map Token.kind)
  have hnested := nested_ofKinds heos
  rw [List.length_map] at hnested
  obtain ⟨hstack, hsorted, hsettled, hheaded⟩ :
      (Builder.start.steps 0 ((tokensFrom .first pieces).map Token.kind)).stack = [] ∧
      lines.Pairwise (fun line other => line.number < other.number) ∧
      Builder.Settled (tokensFrom .first pieces) lines
        (Builder.start.steps 0 ((tokensFrom .first pieces).map Token.kind)) ∧
      Headed (tokensFrom .first pieces) lines
        (startsOf (Builder.start.steps 0 ((tokensFrom .first pieces).map Token.kind)).nodes) := by
    rw [map_kind_tokensFrom]
    cases h with
    | done hdone => cases hdone
    | @move _ t _ piece pieces lines hmove hs =>
      generalize hrest : textOf pieces = rest at hmove
      cases hmove with
      | start =>
        have hstage : (if isLineEnd rest then Stage.lineEnd false else .content) = .lineEnd false ∨
            (if isLineEnd rest then Stage.lineEnd false else .content) = .content := by
          split
          · exact .inl rfl
          · exact .inr rfl
        have hne : (if isLineEnd rest then Stage.lineEnd false else .content) ≠ .start ∧
            (if isLineEnd rest then Stage.lineEnd false else .content) ≠ .done := by
          split <;> exact ⟨nofun, nofun⟩
        have hend := (Builder.traces_start hstage).outlined hs hne.1 hne.2
          (List.nil_append _).symm rfl
        exact hend
  have hrun : (Builder.start.run 0 ((tokensFrom .first pieces).map Token.kind)).nodes =
      (Builder.start.steps 0 ((tokensFrom .first pieces).map Token.kind)).nodes := by
    rw [Builder.run_eq_closeTo, Builder.closeTo, hstack]
    rfl
  refine ⟨hnested, consistent_ofKinds _, hordered.preorder, lineAt_mono (pairwise_tokensFrom _ _),
    hsorted, ?_, fun {id element} hid => ?_⟩
  · rwa [← hrun] at hheaded
  · refine hsettled id (element.token, element.endToken) ?_
    rw [← hrun, getElem?_intervalsOf]
    exact Option.map_eq_some_iff.2 ⟨element, hid, rfl⟩

/-- In every template that can be read, wherever it stands, the elements are nested as its
    lines with content are indented. -/
theorem nestedByLines_tokenize {template : String} {tokens : List Token}
    (h : tokenize template = .ok tokens) (offset line : Nat) :
    (ElementTree.build (placeTokens tokens template.toList offset line)).NestedByLines tokens
      (contentLines template.toList tokens) := by
  obtain ⟨pieces, houtlined, htokens⟩ := exists_outlined_tokenize h
  have heos := eos_not_mem_dropLast h
  rw [ElementTree.build, map_kind_placeTokens]
  generalize contentLines template.toList tokens = lines at *
  subst htokens
  exact (ElementTree.lined_ofKinds houtlined heos).nestedByLines

/-- A template with a list over two lines, a colon, text and a control line. -/
def stairsTemplate : String :=
  "a(x\n  y): b\n  | t\n  if c\n    d\ne"

/-- The tokens of that template. -/
def stairsTokens : List Token :=
  [⟨.tag "a", ⟨1, 1⟩, ⟨1, 2⟩⟩, ⟨.startAttributes, ⟨1, 2⟩, ⟨1, 3⟩⟩,
    ⟨.attribute "x" none true, ⟨1, 3⟩, ⟨1, 4⟩⟩, ⟨.attribute "y" none true, ⟨2, 3⟩, ⟨2, 4⟩⟩,
    ⟨.endAttributes, ⟨2, 4⟩, ⟨2, 5⟩⟩, ⟨.colon, ⟨2, 5⟩, ⟨2, 6⟩⟩, ⟨.tag "b", ⟨2, 7⟩, ⟨2, 8⟩⟩,
    ⟨.indent 2, ⟨3, 1⟩, ⟨3, 3⟩⟩, ⟨.text "t", ⟨3, 5⟩, ⟨3, 6⟩⟩, ⟨.newline, ⟨4, 1⟩, ⟨4, 3⟩⟩,
    ⟨.control .ifWord "c", ⟨4, 3⟩, ⟨4, 7⟩⟩, ⟨.indent 4, ⟨5, 1⟩, ⟨5, 5⟩⟩,
    ⟨.tag "d", ⟨5, 5⟩, ⟨5, 6⟩⟩, ⟨.outdent, ⟨6, 1⟩, ⟨6, 1⟩⟩, ⟨.outdent, ⟨6, 1⟩, ⟨6, 1⟩⟩,
    ⟨.tag "e", ⟨6, 1⟩, ⟨6, 2⟩⟩, ⟨.eos, ⟨6, 2⟩, ⟨6, 2⟩⟩]

/-- The lines with content of that template, on which its elements are nested. -/
theorem nestedByLines_tokenize_stairs :
    tokenize stairsTemplate = .ok stairsTokens ∧
      contentLines stairsTemplate.toList stairsTokens =
        [⟨1, 0⟩, ⟨3, 2⟩, ⟨4, 2⟩, ⟨5, 4⟩, ⟨6, 0⟩] ∧
      (ElementTree.build (placeTokens stairsTokens stairsTemplate.toList 10 3)).NestedByLines
        stairsTokens (contentLines stairsTemplate.toList stairsTokens) := by
  have htokens : tokenize stairsTemplate = .ok stairsTokens := by decide +kernel
  exact ⟨htokens, by decide +kernel, nestedByLines_tokenize htokens 10 3⟩

end PugLint
