import PugLint.Proofs.Element.Order
import PugLint.Proofs.Token.Paths

/-!
# Elements and the stage of the reader

Elements are built from tokens alone, and yet the builder always knows as much as the
reader did: in the head of an element, that element is the one of the line, and at the
start of a line or behind a colon a new one may be opened.

* `Lexer.Stage.Matches`, `ElementTree.Builder.Follows`: what the builder knows at a stage;
* `ElementTree.Builder.Follows.move`: a move of the reader keeps it.
-/

namespace PugLint

open Lexer

/-- What the builder knows where the reader stands at a stage. -/
def Lexer.Stage.Matches (b : ElementTree.Builder) : Stage → Prop
  | .start | .content =>
    b.inRawText = false ∧ b.current = none ∧ b.lineStart = true ∧ b.afterColon = false
  | .head false =>
    b.inRawText = false ∧
      (b.current = none ∧ b.lineStart = true ∧ b.afterColon = false ∨
        b.current.isSome = true ∧ b.afterColon = true)
  | .head true | .list =>
    b.inRawText = false ∧ b.current.isSome = true ∧ b.lineStart = false ∧ b.afterColon = false
  | .lineEnd _ | .done => b.inRawText = false
  | .rawLine _ | .rawEnd _ => b.inRawText = true

namespace ElementTree.Builder

/-- The builder knows where the reader stands, and how many levels are open there. -/
structure Follows (b : Builder) (s : Lexer.State) : Prop where
  /-- The open levels. -/
  level : b.level = s.levels.length
  /-- The stage. -/
  stage : s.stage.Matches b

theorem follows_start : Builder.start.Follows ⟨.start, []⟩ :=
  ⟨rfl, rfl, rfl, rfl, rfl⟩

variable {b : Builder} {s t : Lexer.State}

theorem step_newline (hraw : b.inRawText = false) (i : Nat) :
    b.step i .newline = (b.closeTo b.level i).newLine := by
  rw [step, hraw]
  rfl

/-- Levels are closed one by one, and a line starts behind each. -/
theorem steps_outdents (n i : Nat) (hraw : b.inRawText = false) :
    (b.steps i (List.replicate n .outdent)).level = b.level - n ∧
      (b.steps i (List.replicate n .outdent)).inRawText = false ∧
      (n ≠ 0 → Stage.content.Matches (b.steps i (List.replicate n .outdent))) := by
  induction n generalizing b i with
  | zero => exact ⟨rfl, hraw, absurd rfl⟩
  | succ n ih =>
    have hstep : Stage.content.Matches (b.step i .outdent) := ⟨hraw, rfl, rfl, rfl⟩
    obtain ⟨hlevel, hraw', hcontent⟩ := ih (i + 1) hstep.1
    rw [List.replicate_succ, steps]
    refine ⟨?_, hraw', fun _ => ?_⟩
    · rw [hlevel, Nat.add_comm n, ← Nat.sub_sub]
      rfl
    · cases n with
      | zero => exact hstep
      | succ n => exact hcontent (Nat.succ_ne_zero n)

/-- A line starts behind its indentation. -/
theorem steps_indents {levels levels' : List Nat} {width : Nat} {kinds : List TokenKind}
    (h : Indents levels width kinds levels') (hlevel : b.level = levels.length)
    (hraw : b.inRawText = false) (i : Nat) : (b.steps i kinds).Follows ⟨.content, levels'⟩ := by
  cases h with
  | deeper => exact ⟨congrArg (· + 1) hlevel, hraw, rfl, rfl, rfl⟩
  | same =>
    rw [steps, steps, step_newline hraw]
    exact ⟨hlevel, hraw, rfl, rfl, rfl⟩
  | @outer closed _ _ hne =>
    obtain ⟨hlevel', _, hcontent⟩ := steps_outdents closed.length i hraw
    refine ⟨?_, hcontent (by simpa using hne)⟩
    rw [hlevel', hlevel, List.length_append, Nat.add_sub_cancel_left]

/-- A token that belongs to the line as a whole. -/
theorem step_wholeLine {line : List Char} {kind : TokenKind} {opensBlock : Bool}
    (h : WholeLine line kind opensBlock) (b : Builder) (i : Nat) :
    b.step i kind = ({ b with lineStart := false }).own b.currentOwner :=
  h.of_kind (fun _ => rfl) (fun _ _ => rfl) (fun _ _ => rfl) (fun _ => rfl) fun _ _ => rfl

theorem step_attribute (b : Builder) (i : Nat) (name : String) (value : Option String)
    (escaped : Bool) (h : b.current.isSome = true) :
    ∃ id, b.current = some id ∧ b.step i (.attribute name value escaped) =
      ({ b with nodes := b.nodes.modify id (withAttribute i) }).own (some id) := by
  obtain ⟨id, hid⟩ := Option.isSome_iff_exists.1 h
  refine ⟨id, hid, ?_⟩
  rw [step, currentOwner, hid]
  rfl

/-- A class or an id opens an element where the head has not started. -/
theorem step_literal {c : Char} {kind : String → TokenKind} {started : Bool}
    (h : LiteralMarker c kind) (hstage : (Stage.head started).Matches b) (i : Nat)
    (name : String) :
    b.step i (kind name) =
      if started then ({ b with lineStart := false }).own b.currentOwner
      else b.openElement i "div" .implicit none := by
  have hstep : b.step i (kind name) =
      if b.lineStart || b.afterColon then b.openElement i "div" .implicit none
      else ({ b with lineStart := false }).own b.currentOwner := by cases h <;> rfl
  rw [hstep]
  cases started with
  | false =>
    have hopens : (b.lineStart || b.afterColon) = true := by
      rcases hstage.2 with ⟨_, hline, _⟩ | ⟨_, hcolon⟩
      · rw [hline, Bool.true_or]
      · rw [hcolon, Bool.or_true]
    exact if_pos hopens
  | true =>
    have hstays : ¬(b.lineStart || b.afterColon) = true := by
      rw [hstage.2.2.1, hstage.2.2.2]
      exact Bool.false_ne_true
    exact if_neg hstays

/-- A move of the reader. -/
theorem Follows.move {piece : Piece} {rest : List Char} (h : b.Follows s)
    (hmove : Move s piece rest t) (i : Nat) : (b.steps i piece.kinds).Follows t := by
  obtain ⟨hlevel, hstage⟩ := h
  cases hmove with
  | start =>
    refine ⟨hlevel, ?_⟩
    split
    · exact hstage.1
    · exact hstage
  | bar => exact ⟨hlevel, hstage.1⟩
  | whole h =>
    have hstep := step_wholeLine h b i
    change (b.step i _).Follows _
    rw [hstep]
    exact ⟨hlevel, hstage.1⟩
  | call => exact ⟨hlevel, hstage.1, rfl, rfl, rfl⟩
  | element => exact ⟨hlevel, hstage.1, .inl hstage.2⟩
  | @ended _ started | @dot _ started =>
    refine ⟨hlevel, ?_⟩
    cases started <;> exact hstage.1
  | tag => exact ⟨hlevel, hstage.1, rfl, rfl, rfl⟩
  | @literal _ started _ kind name _ hmarker =>
    change (b.step i (kind (String.ofList name))).Follows _
    rw [step_literal hmarker hstage]
    cases started with
    | false => exact ⟨hlevel, hstage.1, rfl, rfl, rfl⟩
    | true => exact ⟨hlevel, hstage.1, hstage.2.1, rfl, hstage.2.2.2⟩
  | colon => exact ⟨hlevel, hstage.1, .inr ⟨hstage.2.1, rfl⟩⟩
  | opens | spread | slash | closes => exact ⟨hlevel, hstage.1, hstage.2.1, rfl, hstage.2.2.2⟩
  | code h => cases h <;> exact ⟨hlevel, hstage.1⟩
  | trailing | text | interpolation => exact ⟨hlevel, hstage.1⟩
  | listed _ _ h =>
    obtain ⟨name, value, escaped, rfl⟩ := h.exists_eq
    obtain ⟨id, _, hstep⟩ := step_attribute b i name value escaped hstage.2.1
    change (b.step i (.attribute name value escaped)).Follows _
    rw [hstep]
    exact ⟨hlevel, hstage⟩
  | next _ _ _ _ hindents => exact steps_indents hindents hlevel hstage i
  | raw => exact ⟨hlevel, rfl⟩
  | @finish levels =>
    obtain ⟨hlevel', hraw, _⟩ := steps_outdents levels.length i hstage
    change (b.steps i (List.replicate levels.length .outdent ++ [.eos])).Follows _
    rw [steps_append]
    refine ⟨?_, hraw⟩
    exact hlevel'.trans (by rw [hlevel]; exact Nat.sub_self _)
  | rawText => exact ⟨hlevel, hstage⟩
  | rawNext =>
    have hraw : b.inRawText = true := hstage
    change (b.step i .newline).Follows _
    rw [step, if_pos hraw]
    exact ⟨hlevel, hstage⟩
  | rawClose => exact ⟨hlevel, rfl⟩

end ElementTree.Builder

end PugLint
