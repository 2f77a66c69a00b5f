import PugLint.Proofs.Token.Paths

/-!
# Which tokens follow each other

The reader gives tokens in an order that a small machine can follow: it knows whether
the next token stands in a line, in a list of attributes or in a block of raw text, and
the widths of the open levels. The machine goes along with the moves of the reader.

* `Shape.Step`, `Shape.Runs`: the order of tokens, one by one and in a list;
* `Shape.ModeAt`: where the machine stands when the reader stands at a stage;
* `Lexer.Move.runs`, `Lexer.Path.runs`: the machine follows a move, and a path;
* `runs_tokenize`: the tokens of a template lead the machine from its start to its end.
-/

namespace PugLint

/-- Tokens that stand in a line and neither open nor close anything. -/
def TokenKind.isPlain : TokenKind → Bool
  | .startAttributes | .attribute _ _ _ | .endAttributes | .startRawText | .endRawText => false
  | .newline | .indent _ | .outdent | .eos => false
  | _ => true

namespace Shape

/-- Where the next token stands. -/
inductive Mode where
  /-- In a line. -/
  | line
  /-- In a list of attributes. -/
  | list
  /-- In front of a line of raw text. -/
  | rawStart
  /-- Behind a line of raw text. -/
  | rawText
  /-- Behind a block of raw text. -/
  | rawEnd
  /-- Behind the end of the template. -/
  | done
  deriving DecidableEq, Repr

/-- Whether a line may end here. -/
def Mode.EndsLine (mode : Mode) : Prop :=
  mode = .line ∨ mode = .rawEnd

/-- Where the next token stands, and the widths of the open levels, the deepest first. -/
structure State where
  /-- Where the next token stands. -/
  mode : Mode
  /-- The widths of the open levels. -/
  widths : List Nat
  deriving DecidableEq, Repr

/-- The state in front of the first token. -/
def State.start : State := ⟨.line, []⟩

/-- The state behind the last token. -/
def State.stop : State := ⟨.done, []⟩

/-- A token that may come next, and the state behind it. -/
inductive Step : State → TokenKind → State → Prop where
  | plain {widths : List Nat} {kind : TokenKind} (h : kind.isPlain = true) :
      Step ⟨.line, widths⟩ kind ⟨.line, widths⟩
  | startAttributes {widths : List Nat} : Step ⟨.line, widths⟩ .startAttributes ⟨.list, widths⟩
  | listed {widths : List Nat} {name : String} {value : Option String} {escaped : Bool} :
      Step ⟨.list, widths⟩ (.attribute name value escaped) ⟨.list, widths⟩
  | endAttributes {widths : List Nat} : Step ⟨.list, widths⟩ .endAttributes ⟨.line, widths⟩
  | startRawText {widths : List Nat} : Step ⟨.line, widths⟩ .startRawText ⟨.rawStart, widths⟩
  | rawText {widths : List Nat} {value : String} :
      Step ⟨.rawStart, widths⟩ (.text value) ⟨.rawText, widths⟩
  | rawNewline {widths : List Nat} : Step ⟨.rawText, widths⟩ .newline ⟨.rawStart, widths⟩
  | endRawText {widths : List Nat} : Step ⟨.rawText, widths⟩ .endRawText ⟨.rawEnd, widths⟩
  | newline {mode : Mode} {widths : List Nat} (h : mode.EndsLine) :
      Step ⟨mode, widths⟩ .newline ⟨.line, widths⟩
  /-- No deeper line follows a block of raw text. -/
  | indent {width : Nat} {widths : List Nat} (h : ∀ outer ∈ widths.head?, outer < width) :
      Step ⟨.line, widths⟩ (.indent width) ⟨.line, width :: widths⟩
  | outdent {mode : Mode} {width : Nat} {widths : List Nat} (h : mode.EndsLine) :
      Step ⟨mode, width :: widths⟩ .outdent ⟨.line, widths⟩
  /-- All levels are closed in front of the end. -/
  | eos {mode : Mode} (h : mode.EndsLine) : Step ⟨mode, []⟩ .eos State.stop

/-- Tokens that may come one after the other, and the state behind them. -/
inductive Runs : State → List TokenKind → State → Prop where
  | nil {s : State} : Runs s [] s
  | cons {s t u : State} {kind : TokenKind} {kinds : List TokenKind} (h : Step s kind t)
      (hs : Runs t kinds u) : Runs s (kind :: kinds) u

namespace Runs

variable {s t u : State} {kind : TokenKind} {kinds others : List TokenKind}

theorem single (h : Step s kind t) : Runs s [kind] t :=
  .cons h .nil

theorem append (h : Runs s kinds t) (h' : Runs t others u) : Runs s (kinds ++ others) u := by
  induction h with
  | nil => exact h'
  | cons hstep _ ih => exact .cons hstep (ih h')

theorem exists_append (h : Runs s (kinds ++ others) u) : ∃ t, Runs s kinds t ∧ Runs t others u := by
  induction kinds generalizing s with
  | nil => exact ⟨s, .nil, h⟩
  | cons kind kinds ih =>
    cases h with
    | cons hstep hs =>
      obtain ⟨t, hkinds, hothers⟩ := ih hs
      exact ⟨t, .cons hstep hkinds, hothers⟩

/-- The last token of a list. -/
theorem exists_concat (h : Runs s (kinds ++ [kind]) u) : ∃ t, Runs s kinds t ∧ Step t kind u := by
  obtain ⟨t, hkinds, hlast⟩ := h.exists_append
  cases hlast with
  | cons hstep hnil =>
    cases hnil
    exact ⟨t, hkinds, hstep⟩

/-- Levels are closed one by one. -/
theorem outdents (closed widths : List Nat) :
    Runs ⟨.line, closed ++ widths⟩ (List.replicate closed.length .outdent) ⟨.line, widths⟩ := by
  induction closed with
  | nil => exact .nil
  | cons width closed ih => exact .cons (.outdent (.inl rfl)) ih

/-- Levels are closed at the end of a line. -/
theorem outdents_of_endsLine {mode : Mode} (h : mode.EndsLine) {closed : List Nat}
    (hne : closed ≠ []) (widths : List Nat) :
    Runs ⟨mode, closed ++ widths⟩ (List.replicate closed.length .outdent) ⟨.line, widths⟩ := by
  cases closed with
  | nil => exact absurd rfl hne
  | cons width closed => exact .cons (.outdent h) (outdents closed widths)

end Runs

end Shape

namespace Shape

/-- Where the next token stands at a stage of the reader. -/
def modeOf : Lexer.Stage → Mode
  | .start | .content | .head _ | .lineEnd _ => .line
  | .list => .list
  | .rawLine _ => .rawStart
  | .rawEnd _ => .rawText
  | .done => .done

/-- Where the next token stands with the reader in front of a text. Behind a block of raw
    text no deeper line follows. -/
inductive ModeAt (s : Lexer.State) (rest : List Char) : Mode → Prop where
  | stage : ModeAt s rest (modeOf s.stage)
  | rawEnd {lines indentation content : List Char} (hstage : s.stage = .lineEnd false)
      (h : Lexer.Ahead lines indentation content)
      (hrest : rest = lines ++ (indentation ++ content))
      (hdeeper : content = [] ∨ indentation.length ≤ s.levels.headD 0) : ModeAt s rest .rawEnd

variable {s : Lexer.State} {mode : Mode} {rest : List Char}

theorem ModeAt.eq_modeOf (h : ModeAt s rest mode) (hstage : s.stage ≠ .lineEnd false) :
    mode = modeOf s.stage := by
  cases h with
  | stage => rfl
  | rawEnd hend => exact absurd hend hstage

theorem ModeAt.endsLine {opensBlock : Bool} {levels : List Nat}
    (h : ModeAt ⟨.lineEnd opensBlock, levels⟩ rest mode) : mode.EndsLine := by
  cases h with
  | stage => exact .inl rfl
  | rawEnd => exact .inr rfl

/-- In front of a deeper line, the machine stands in a line. -/
theorem ModeAt.eq_line {opensBlock : Bool} {levels : List Nat}
    {lines indentation content : List Char}
    (h : ModeAt ⟨.lineEnd opensBlock, levels⟩ (lines ++ (indentation ++ content)) mode)
    (hahead : Lexer.Ahead lines indentation content) (hcontent : content ≠ [])
    (hdeeper : levels.headD 0 < indentation.length) : mode = .line := by
  cases h with
  | stage => rfl
  | rawEnd _ hahead' hrest hdeeper' =>
    obtain ⟨rfl, rfl⟩ := hahead.unique hahead' hrest
    exact absurd (hdeeper'.resolve_left hcontent) (Nat.not_le.2 hdeeper)

end Shape

namespace Lexer

open Shape

/-- The indentation of a line opens or closes levels. -/
theorem Indents.runs {levels levels' : List Nat} {width : Nat} {kinds : List TokenKind}
    {mode : Mode} (h : Indents levels width kinds levels') (hmode : mode.EndsLine)
    (hline : levels.headD 0 < width → mode = .line) :
    Runs ⟨mode, levels⟩ kinds ⟨.line, levels'⟩ := by
  cases h with
  | deeper hdeeper =>
    obtain rfl := hline hdeeper
    refine .single (.indent fun outer houter => ?_)
    rwa [List.headD_eq_head?_getD, houter] at hdeeper
  | same => exact .single (.newline hmode)
  | outer hne => exact .outdents_of_endsLine hmode hne _

/-- At the end of a template, all levels are closed. -/
theorem runs_finish {mode : Mode} (h : mode.EndsLine) (levels : List Nat) :
    Runs ⟨mode, levels⟩ (List.replicate levels.length .outdent ++ [.eos]) State.stop := by
  cases levels with
  | nil => exact .single (.eos h)
  | cons level levels =>
    have hclose := Runs.outdents_of_endsLine h (List.cons_ne_nil level levels) []
    rw [List.append_nil] at hclose
    exact hclose.append (.single (.eos (.inl rfl)))

variable {s t : State} {mode : Mode} {rest : List Char}

/-- The machine goes along with a move. -/
theorem Move.runs {piece : Piece} (h : Move s piece rest t)
    (hmode : ModeAt s (piece.text ++ rest) mode) :
    ∃ mode', ModeAt t rest mode' ∧ Runs ⟨mode, s.levels⟩ piece.kinds ⟨mode', t.levels⟩ := by
  have hplain {levels : List Nat} {kind : TokenKind} (hkind : kind.isPlain = true) :
      Runs ⟨.line, levels⟩ [kind] ⟨.line, levels⟩ := .single (.plain hkind)
  cases h with
  | start =>
    obtain rfl := hmode.eq_modeOf (by simp)
    refine ⟨.line, ?_, .nil⟩
    split <;> exact .stage
  | element | ended | trailing =>
    obtain rfl := hmode.eq_modeOf (by simp)
    exact ⟨_, .stage, .nil⟩
  | whole h =>
    obtain rfl := hmode.eq_modeOf (by simp)
    refine ⟨_, .stage, hplain ?_⟩
    exact h.of_kind (fun _ => rfl) (fun _ _ => rfl) (fun _ _ => rfl) (fun _ => rfl) fun _ _ => rfl
  | literal hc | code hc =>
    obtain rfl := hmode.eq_modeOf (by simp)
    exact ⟨_, .stage, hplain (by cases hc <;> rfl)⟩
  | bar | call | tag | dot | spread | colon | slash | text | interpolation =>
    obtain rfl := hmode.eq_modeOf (by simp)
    exact ⟨_, .stage, hplain rfl⟩
  | opens =>
    obtain rfl := hmode.eq_modeOf (by simp)
    exact ⟨_, .stage, .single .startAttributes⟩
  | listed _ _ h =>
    obtain ⟨name, value, escaped, rfl⟩ := h.exists_eq
    obtain rfl := hmode.eq_modeOf (by simp)
    exact ⟨_, .stage, .single .listed⟩
  | closes =>
    obtain rfl := hmode.eq_modeOf (by simp)
    exact ⟨_, .stage, .single .endAttributes⟩
  | next h _ hcontent _ hindents =>
    refine ⟨_, .stage, hindents.runs hmode.endsLine fun hdeeper => ?_⟩
    simp only [Piece.text, List.append_nil, List.append_assoc] at hmode
    exact hmode.eq_line h hcontent hdeeper
  | raw =>
    obtain rfl := hmode.eq_modeOf (by simp)
    exact ⟨_, .stage, .single .startRawText⟩
  | finish => exact ⟨_, .stage, runs_finish hmode.endsLine _⟩
  | rawText =>
    obtain rfl := hmode.eq_modeOf (by simp)
    exact ⟨_, .stage, .single .rawText⟩
  | rawNext =>
    obtain rfl := hmode.eq_modeOf (by simp)
    exact ⟨_, .stage, .single .rawNewline⟩
  | rawClose h hdeeper =>
    obtain rfl := hmode.eq_modeOf (by simp)
    exact ⟨_, .rawEnd rfl h rfl hdeeper, .single .endRawText⟩

/-- The machine goes along with a path. -/
theorem Path.runs {pieces : List Piece} (h : Path s pieces rest t)
    (hmode : ModeAt s (textOf pieces ++ rest) mode) :
    ∃ mode', ModeAt t rest mode' ∧
      Runs ⟨mode, s.levels⟩ (pieces.flatMap Piece.kinds) ⟨mode', t.levels⟩ := by
  induction h generalizing mode with
  | nil => exact ⟨mode, hmode, .nil⟩
  | cons hmove _ ih =>
    rw [textOf_cons, List.append_assoc] at hmode
    obtain ⟨middle, hmiddle, hkinds⟩ := hmove.runs hmode
    obtain ⟨mode', hmode', hothers⟩ := ih hmiddle
    rw [List.flatMap_cons]
    exact ⟨mode', hmode', hkinds.append hothers⟩

end Lexer

open Lexer in
/-- The tokens of a template lead from its start to its end. -/
theorem runs_tokenize {template : String} {tokens : List Token}
    (h : tokenize template = .ok tokens) :
    Shape.Runs Shape.State.start (tokens.map Token.kind) Shape.State.stop := by
  obtain ⟨pieces, hpath, -, rfl⟩ := exists_path_tokenize h
  obtain ⟨mode, hmode, hruns⟩ := hpath.runs .stage
  obtain rfl := hmode.eq_modeOf (by simp)
  rw [map_kind_tokensFrom]
  exact hruns

end PugLint
