import PugLint.Proofs.Token.Bracketing
import PugLint.Proofs.Token.Indenting

/-!
# The elements of indented templates

A template whose lines are all indented by the same blanks has the same elements as before, with
the same links and attributes. Where its first line with content was not indented and its first
line is blank, or stands alone, all elements come to lie one level deeper. The level is opened where
nothing is open, and it is closed at the end.

The first line of a template has no level of its own. So if it has an element, and later lines are
not indented, these are nested in the element when all are indented, or their width is that of no
line.

* `ElementTree.Builder.raise`: a forest under construction, one level deeper;
* `ElementTree.Builder.steps_raise`: it is built alike;
* `tree_indented`: the elements of an indented template.
-/

namespace PugLint

open Lexer

namespace ElementTree.Builder

/-! ### One level deeper -/

/-- The forest under construction with all its lines one level deeper. -/
def raise (b : Builder) : Builder :=
  { b with stack := b.stack.map fun entry => (entry.1, entry.2 + 1), level := b.level + 1 }

theorem innermost_raise (b : Builder) : b.raise.innermost = b.innermost := by
  rw [innermost, innermost, raise, List.head?_map, Option.map_map]
  rfl

theorem currentOwner_raise (b : Builder) : b.raise.currentOwner = b.currentOwner := by
  rw [currentOwner, currentOwner, innermost_raise]
  rfl

theorem own_raise (b : Builder) (owner : Option Nat) : b.raise.own owner = (b.own owner).raise :=
  rfl

theorem closeFrom_raise (nodes : Array Element) (level token : Nat) (stack : List (Nat × Nat)) :
    closeFrom nodes (level + 1) token (stack.map fun entry => (entry.1, entry.2 + 1)) =
      ((closeFrom nodes level token stack).1,
        (closeFrom nodes level token stack).2.map fun entry => (entry.1, entry.2 + 1)) := by
  induction stack generalizing nodes with
  | nil => rfl
  | cons entry stack ih =>
    rw [List.map_cons, closeFrom, closeFrom]
    by_cases h : entry.2 < level
    · rw [if_pos h, if_pos (Nat.add_lt_add_right h 1)]
      rfl
    · rw [if_neg h, if_neg (by omega), ih]

/-- Closing all elements does not look at their levels. -/
theorem closeFrom_zero_raise (nodes : Array Element) (token : Nat) (stack : List (Nat × Nat)) :
    closeFrom nodes 0 token (stack.map fun entry => (entry.1, entry.2 + 1)) =
      ((closeFrom nodes 0 token stack).1, []) := by
  induction stack generalizing nodes with
  | nil => rfl
  | cons entry stack ih =>
    rw [List.map_cons, closeFrom, closeFrom, if_neg (Nat.not_lt_zero _),
      if_neg (Nat.not_lt_zero _), ih]

theorem closeTo_raise (b : Builder) (level token : Nat) :
    b.raise.closeTo (level + 1) token = (b.closeTo level token).raise := by
  simp only [closeTo, raise, closeFrom_raise]

theorem newLine_raise (b : Builder) : b.raise.newLine = b.newLine.raise := by
  rw [newLine, newLine, innermost_raise]
  rfl

theorem openElement_raise (b : Builder) (token : Nat) (name : String) (kind : ElementKind)
    (tagToken : Option Nat) :
    b.raise.openElement token name kind tagToken =
      (b.openElement token name kind tagToken).raise := by
  simp only [openElement, currentOwner_raise, innermost_raise]
  rfl

/-- The width of an indentation says nothing about elements. -/
theorem step_flat (b : Builder) (i : Nat) (kind : TokenKind) :
    b.step i kind.flat = b.step i kind := by
  cases kind <;> rfl

theorem steps_flat (b : Builder) (i : Nat) (kinds : List TokenKind) :
    b.steps i (kinds.map TokenKind.flat) = b.steps i kinds := by
  induction kinds generalizing b i with
  | nil => rfl
  | cons kind kinds ih => rw [List.map_cons, steps, steps, step_flat, ih]

/-- One level deeper, a token does the same, if it closes a level only where one is open. -/
theorem step_raise (b : Builder) (i : Nat) (kind : TokenKind)
    (h : kind = .outdent → 0 < b.level) : b.raise.step i kind = (b.step i kind).raise := by
  have hlineStart : ({ b.raise with lineStart := false } : Builder).own b.raise.currentOwner =
      (({ b with lineStart := false } : Builder).own b.currentOwner).raise := by
    rw [currentOwner_raise]
    rfl
  cases kind with
  | newline =>
    have hraw : b.raise.inRawText = b.inRawText := rfl
    have hlevel : b.raise.level = b.level + 1 := rfl
    simp only [step, hraw, hlevel]
    split
    · rw [currentOwner_raise, own_raise]
    · rw [closeTo_raise, newLine_raise]
  | indent width => exact newLine_raise { b with level := b.level + 1 }
  | outdent =>
    have hlevel : b.raise.level - 1 = b.level - 1 + 1 := by
      have hpos := h rfl
      change b.level + 1 - 1 = _
      omega
    simp only [step, hlevel]
    rw [← newLine_raise, ← closeTo_raise]
    rfl
  | eos =>
    have hstack : (closeFrom b.nodes 0 i b.stack).2 = [] := stack_closeTo_zero b i
    simp only [step, closeTo, raise, closeFrom_zero_raise, own, hstack, List.map_nil]
  | tag name => exact openElement_raise b i name .tag (some i)
  | call name => exact openElement_raise b i name .mixin none
  | classLiteral _ | idLiteral _ =>
    change (if b.lineStart || b.afterColon then _ else _) = raise (if _ then _ else _)
    split
    · exact openElement_raise b i "div" .implicit none
    · exact hlineStart
  | colon | startRawText | endRawText | «attribute» _ _ _ =>
    simp only [step, currentOwner_raise]
    rfl
  | _ => exact hlineStart

/-- One level deeper, tokens that may follow each other build the same elements. -/
theorem steps_raise {s t : Shape.State} {kinds : List TokenKind} (h : Shape.Runs s kinds t)
    {b : Builder} (hb : b.level = s.widths.length) (i : Nat) :
    b.raise.steps i kinds = (b.steps i kinds).raise := by
  induction h generalizing b i with
  | nil => rfl
  | @cons s t u kind kinds hstep _ ih =>
    have hpos : kind = .outdent → 0 < b.level := by
      rintro rfl
      have hlength := hstep.length_outdent
      omega
    have hlevel : (b.step i kind).level = t.widths.length := by
      rw [hstep.widths_eq]
      exact b.level_step i kind hb
    rw [steps, steps, step_raise b i kind hpos, ih hlevel]

/-! ### Levels around a whole template -/

theorem closeTo_of_stack {b : Builder} (h : b.stack = []) (level token : Nat) :
    b.closeTo level token = b := by
  rw [closeTo, h]
  exact congrArg (fun stack => { b with stack }) h.symm

/-- Lines that stand alone open nothing. -/
theorem steps_standsAlone {kinds : List TokenKind}
    (hkinds : ∀ kind ∈ kinds, kind.standsAlone = true) {b : Builder} (i : Nat) :
    (b.steps i kinds).stack = b.stack ∧ (b.steps i kinds).inRawText = b.inRawText := by
  induction kinds generalizing b i with
  | nil => exact ⟨rfl, rfl⟩
  | cons kind kinds ih =>
    obtain ⟨hkind, hkinds⟩ := List.forall_mem_cons.1 hkinds
    have hstep : b.step i kind = ({ b with lineStart := false }).own b.currentOwner := by
      cases kind <;> first | rfl | cases hkind
    obtain ⟨hstack, hraw⟩ := ih hkinds (b := b.step i kind) (i + 1)
    rw [steps, hstack, hraw, hstep]
    exact ⟨rfl, rfl⟩

/-- Where nothing is open, a deeper line is a line one level deeper. -/
theorem step_indent {b : Builder} (hstack : b.stack = []) (hraw : b.inRawText = false)
    (i width : Nat) : b.step i (.indent width) = (b.step i .newline).raise := by
  have hnewline : b.step i .newline = b.newLine := by
    simp only [step, hraw, closeTo_of_stack hstack]
    rfl
  rw [hnewline, ← newLine_raise]
  simp only [step, raise, hstack, List.map_nil]

/-- At the end, an open level is closed or not. -/
theorem nodes_run_outdent {b : Builder} (h : b.level = 0) (i : Nat) :
    (b.raise.run i [.outdent, .eos]).nodes = (b.run i [.eos]).nodes := by
  have hlevel : b.raise.level - 1 = 0 := h
  have houtdent : b.raise.step i .outdent =
      (({ b.raise with level := 0 }).closeTo 0 i).newLine := by
    simp only [step, hlevel]
  have hstack : (b.step i .eos).stack = [] := stack_closeTo_zero b i
  have hstack' : (b.raise.step i .outdent).stack = [] := by
    rw [houtdent]
    exact stack_closeTo_zero _ i
  have heos : ((b.raise.step i .outdent).step (i + 1) .eos).stack = [] := stack_closeTo_zero _ _
  rw [run, run, run, run, run, closeTo_of_stack heos, closeTo_of_stack hstack]
  calc ((b.raise.step i .outdent).step (i + 1) .eos).nodes
      = ((b.raise.step i .outdent).closeTo 0 (i + 1)).nodes := rfl
    _ = (({ b.raise with level := 0 }).closeTo 0 i).nodes := by
        rw [closeTo_of_stack hstack', houtdent]
        rfl
    _ = (closeFrom b.nodes 0 i b.raise.stack).1 := rfl
    _ = (closeFrom b.nodes 0 i b.stack).1 := by rw [raise, closeFrom_zero_raise]
    _ = (b.step i .eos).nodes := rfl

end ElementTree.Builder

open ElementTree.Builder in
/-- The elements of an indented text. -/
theorem Lexer.Rises.nodes_ofKinds {kinds kinds' : List TokenKind} (h : Rises kinds kinds')
    (hruns : Shape.Runs .start kinds .stop) :
    (ElementTree.ofKinds kinds').nodes = (ElementTree.ofKinds kinds).nodes := by
  have hrun (b : ElementTree.Builder) (i : Nat) {body body' : List TokenKind}
      (hflat : body'.map TokenKind.flat = body.map TokenKind.flat) :
      b.steps i body' = b.steps i body := by
    rw [← steps_flat, hflat, steps_flat]
  change (run _ _ _).nodes = (run _ _ _).nodes
  cases h with
  | same hflat =>
    have hlength := congrArg List.length hflat
    rw [List.length_map, List.length_map] at hlength
    rw [run_eq_closeTo, run_eq_closeTo, hrun _ _ hflat, hlength]
  | @ground front body body' width hfront hflat =>
    have hsplit : front ++ .newline :: (body ++ [.eos]) =
        (front ++ [.newline]) ++ (body ++ [.eos]) := by
      rw [List.append_assoc, List.singleton_append]
    rw [hsplit] at hruns
    obtain ⟨t, hline, hback⟩ := hruns.exists_append
    obtain ⟨u, hbody, heos⟩ := hback.exists_concat
    obtain ⟨hstack, hraw⟩ := steps_standsAlone hfront (b := start) 0
    -- Behind the line break both forests are the same, up to the level.
    generalize hb : start.steps 0 front = b at hstack hraw
    have hlevel : (b.step front.length .newline).level = t.widths.length := by
      have hwidths : t.widths = openWidths (front ++ [.newline]) := hline.widths_eq
      have hlevel := level_steps_start (front ++ [.newline])
      rwa [steps_append, hb, ← hwidths, Nat.zero_add] at hlevel
    have hground : ((b.step front.length .newline).steps (front.length + 1) body).level = 0 := by
      rw [level_steps _ _ _ hlevel, ← hbody.widths_eq]
      cases heos
      rfl
    have hlength : body'.length = body.length := by
      rw [← List.length_map TokenKind.flat, hflat, List.length_map]
    rw [run_append, run_append, hb, Nat.zero_add, run, run, run_append, run_append,
      step_indent hstack hraw, hrun _ _ hflat, steps_raise hbody hlevel, hlength]
    exact nodes_run_outdent hground _

/-- Each attribute of an indented text is the one with the same number. -/
theorem Lexer.Rises.attribute?_eq {kinds kinds' : List TokenKind} (h : Rises kinds kinds')
    (i : Nat) : kinds'[i]?.bind TokenKind.attribute? = kinds[i]?.bind TokenKind.attribute? := by
  have hlist : kinds'.map TokenKind.attribute? = kinds.map TokenKind.attribute? ∨
      kinds'.map TokenKind.attribute? = kinds.map TokenKind.attribute? ++ [none] := by
    have hcongr {body body' : List TokenKind}
        (hflat : body'.map TokenKind.flat = body.map TokenKind.flat) :
        body'.map TokenKind.attribute? = body.map TokenKind.attribute? := by
      have hkind : TokenKind.attribute? = TokenKind.attribute? ∘ TokenKind.flat := by
        funext kind
        cases kind <;> rfl
      rw [hkind, ← List.map_map, ← List.map_map, hflat]
    cases h with
    | same hflat => exact .inl (hcongr hflat)
    | ground width hfront hflat =>
      refine .inr ?_
      simp only [List.map_append, List.map_cons, hcongr hflat, List.append_assoc,
        List.cons_append]
      rfl
  have hjoin (kinds : List TokenKind) : kinds[i]?.bind TokenKind.attribute? =
      (kinds.map TokenKind.attribute?)[i]?.join := by
    rw [List.getElem?_map]
    cases kinds[i]? <;> rfl
  rw [hjoin, hjoin]
  rcases hlist with hlist | hlist
  · rw [hlist]
  · rw [hlist]
    by_cases hlt : i < (kinds.map TokenKind.attribute?).length
    · rw [List.getElem?_append_left hlt]
    · rw [List.getElem?_append_right (Nat.le_of_not_lt hlt),
        List.getElem?_eq_none (Nat.le_of_not_lt hlt)]
      cases i - (kinds.map TokenKind.attribute?).length <;> rfl

/-- The attributes of an element, from the tokens that the elements are built of. -/
def Element.attributesIn (element : Element) (tokens : List PlacedToken) :
    List (String × Option String) :=
  element.attributes.filterMap fun i => tokens[i]?.bind PlacedToken.attribute?

/-- If no token has a line break, the first line with content is the least indented one and the
    lines behind the first one become no deeper than it, all lines can be indented. The template has
    the same elements, with the same names, kinds, attributes and links. -/
theorem tree_indented {template : String} {tokens : List Token}
    (h : tokenize template = .ok tokens) (hmark : template.toList.head? ≠ some '\ufeff')
    (htokens : ∀ token ∈ tokens, token.span.start.line = token.span.stop.line)
    (hleast : ∀ line ∈ (contentLines template.toList tokens).tail,
      firstWidth template.toList (contentLines template.toList tokens) ≤ line.width)
    {blanks : List Char} (hblanks : ∀ c ∈ blanks, isInlineBlank c = true)
    (hfirst : blanks = [] ∨
      KeepsFirst template.toList tokens (contentLines template.toList tokens)) :
    ∃ tokens', tokenize (String.ofList (indented blanks template.toList)) = .ok tokens' ∧
      let placed := placeTokens tokens template.toList 0 1
      let placed' := placeTokens tokens' (indented blanks template.toList) 0 1
      (ElementTree.build placed').nodes = (ElementTree.build placed).nodes ∧
        ∀ element ∈ (ElementTree.build placed).nodes,
          element.attributesIn placed' = element.attributesIn placed := by
  obtain ⟨tokens', h', hrises⟩ := exists_rises_tokenize h hmark htokens hleast hblanks hfirst
  refine ⟨tokens', h', ?_, fun element _ => ?_⟩
  · rw [ElementTree.build, ElementTree.build, map_kind_placeTokens, map_kind_placeTokens]
    exact hrises.nodes_ofKinds (runs_tokenize h)
  · have hattribute (tokens : List PlacedToken) (i : Nat) :
        tokens[i]?.bind PlacedToken.attribute? =
          (tokens.map PlacedToken.kind)[i]?.bind TokenKind.attribute? := by
      rw [List.getElem?_map, Option.bind_map]
      rfl
    rw [Element.attributesIn, Element.attributesIn]
    congr 1
    funext i
    rw [hattribute, hattribute, map_kind_placeTokens, map_kind_placeTokens]
    exact hrises.attribute?_eq i

/-- A list with attributes on two lines and a block of raw text, below a line that stands alone. -/
def listTemplate : String :=
  "doctype html\nul(a='1'\n   b): li.\n      x\n    y\np"

/-- The tokens of that template. -/
def listTokens : List Token :=
  [⟨.doctype "html", ⟨1, 1⟩, ⟨1, 13⟩⟩, ⟨.newline, ⟨2, 1⟩, ⟨2, 1⟩⟩, ⟨.tag "ul", ⟨2, 1⟩, ⟨2, 3⟩⟩,
    ⟨.startAttributes, ⟨2, 3⟩, ⟨2, 4⟩⟩, ⟨.attribute "a" (some "'1'") true, ⟨2, 4⟩, ⟨2, 9⟩⟩,
    ⟨.attribute "b" none true, ⟨3, 4⟩, ⟨3, 5⟩⟩, ⟨.endAttributes, ⟨3, 5⟩, ⟨3, 6⟩⟩,
    ⟨.colon, ⟨3, 6⟩, ⟨3, 7⟩⟩, ⟨.tag "li", ⟨3, 8⟩, ⟨3, 10⟩⟩, ⟨.dot, ⟨3, 10⟩, ⟨3, 11⟩⟩,
    ⟨.startRawText, ⟨4, 7⟩, ⟨4, 7⟩⟩, ⟨.text "x", ⟨4, 7⟩, ⟨4, 8⟩⟩, ⟨.newline, ⟨5, 1⟩, ⟨5, 5⟩⟩,
    ⟨.text "y", ⟨5, 5⟩, ⟨5, 6⟩⟩, ⟨.endRawText, ⟨5, 6⟩, ⟨5, 6⟩⟩, ⟨.newline, ⟨6, 1⟩, ⟨6, 1⟩⟩,
    ⟨.tag "p", ⟨6, 1⟩, ⟨6, 2⟩⟩, ⟨.eos, ⟨6, 2⟩, ⟨6, 2⟩⟩]

theorem tokenize_list : tokenize listTemplate = .ok listTokens := by
  decide +kernel

/-- That template can be indented by a tab and a blank. -/
theorem tree_indented_list :
    ∃ tokens', tokenize (String.ofList (indented ['\t', ' '] listTemplate.toList)) = .ok tokens' ∧
      let placed := placeTokens listTokens listTemplate.toList 0 1
      let placed' := placeTokens tokens' (indented ['\t', ' '] listTemplate.toList) 0 1
      (ElementTree.build placed').nodes = (ElementTree.build placed).nodes ∧
        ∀ element ∈ (ElementTree.build placed).nodes,
          element.attributesIn placed' = element.attributesIn placed :=
  tree_indented tokenize_list (by decide +kernel) (by decide +kernel) (by decide +kernel)
    (List.all_eq_true.1 (by decide)) (.inr (.inr (.inr ⟨by decide, by decide +kernel⟩)))

/-- If the first line has an element and the next one is not indented either, it is nested in the
    element when both are indented. The line behind a nested one has no level to go back to. -/
theorem tree_indented_nests :
    (∃ tokens tokens', tokenize "a\nb" = .ok tokens ∧
      (∀ token ∈ tokens, token.span.start.line = token.span.stop.line) ∧
      (∀ line ∈ (contentLines "a\nb".toList tokens).tail,
        firstWidth "a\nb".toList (contentLines "a\nb".toList tokens) ≤ line.width) ∧
      tokenize (String.ofList (indented [' ', ' '] "a\nb".toList)) = .ok tokens' ∧
      (ElementTree.ofKinds (tokens.map Token.kind)).nodes.map Element.parent = #[none, none] ∧
      (ElementTree.ofKinds (tokens'.map Token.kind)).nodes.map Element.parent =
        #[none, some 0]) ∧
    ∃ tokens, tokenize "a\n  b\nc" = .ok tokens ∧
      (∀ token ∈ tokens, token.span.start.line = token.span.stop.line) ∧
      (∀ line ∈ (contentLines "a\n  b\nc".toList tokens).tail,
        firstWidth "a\n  b\nc".toList (contentLines "a\n  b\nc".toList tokens) ≤ line.width) ∧
      tokenize (String.ofList (indented [' ', ' '] "a\n  b\nc".toList)) =
        .error (.inconsistentIndentation 3 0 2) := by
  refine ⟨⟨[⟨.tag "a", ⟨1, 1⟩, ⟨1, 2⟩⟩, ⟨.newline, ⟨2, 1⟩, ⟨2, 1⟩⟩, ⟨.tag "b", ⟨2, 1⟩, ⟨2, 2⟩⟩,
      ⟨.eos, ⟨2, 2⟩, ⟨2, 2⟩⟩],
    [⟨.tag "a", ⟨1, 3⟩, ⟨1, 4⟩⟩, ⟨.indent 2, ⟨2, 1⟩, ⟨2, 3⟩⟩, ⟨.tag "b", ⟨2, 3⟩, ⟨2, 4⟩⟩,
      ⟨.outdent, ⟨2, 4⟩, ⟨2, 4⟩⟩, ⟨.eos, ⟨2, 4⟩, ⟨2, 4⟩⟩],
    by decide +kernel, by decide, by decide +kernel, by decide +kernel, by decide +kernel,
    by decide +kernel⟩,
    [⟨.tag "a", ⟨1, 1⟩, ⟨1, 2⟩⟩, ⟨.indent 2, ⟨2, 1⟩, ⟨2, 3⟩⟩, ⟨.tag "b", ⟨2, 3⟩, ⟨2, 4⟩⟩,
      ⟨.outdent, ⟨3, 1⟩, ⟨3, 1⟩⟩, ⟨.tag "c", ⟨3, 1⟩, ⟨3, 2⟩⟩, ⟨.eos, ⟨3, 2⟩, ⟨3, 2⟩⟩],
    by decide +kernel, by decide, by decide +kernel, by decide +kernel⟩

end PugLint
