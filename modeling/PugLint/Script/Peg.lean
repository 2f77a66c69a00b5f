/-!
# Parsing expressions

A grammar gives a parsing expression for every symbol. An expression is matched
against the start of a text; of two alternatives the first that matches is
taken, and a repetition takes as much as it can. A match gives the trees that
the expression asks for and the rest of the text.

Expressions are matched in a scope, a value that an expression can change for a
part of the text and that can be asked for, so that what a text means may depend
on what it stands in.

* `Peg.run`: the match of an expression, with a bound on the depth of matching.
-/

namespace PugLint.Script

/-- What a match has found. -/
inductive Tree (κ : Type) where
  /-- A piece of text. -/
  | leaf (text : List Char)
  /-- What was found inside a labelled expression. -/
  | node (label : κ) (children : List (Tree κ))
  deriving Inhabited

/-- A parsing expression with symbols `σ`, labels `κ` and scopes `γ`. -/
inductive Peg (σ κ γ : Type) where
  /-- Matches the empty text. -/
  | empty
  /-- Matches what a scanner accepts, and gives no tree. -/
  | token (scan : List Char → Option (List Char))
  /-- Matches what a scanner accepts, and gives the text that it returns. -/
  | lexeme (scan : List Char → Option (List Char × List Char))
  /-- Matches one expression and then another. -/
  | both (first second : Peg σ κ γ)
  /-- Matches one expression or, if that fails, another. -/
  | either (first second : Peg σ κ γ)
  /-- Matches an expression as often as possible. -/
  | many (body : Peg σ κ γ)
  /-- Matches the empty text where an expression would match. -/
  | ahead (body : Peg σ κ γ)
  /-- Matches the empty text where an expression would not match. -/
  | absent (body : Peg σ κ γ)
  /-- Matches the expression of a symbol. -/
  | symbol (name : σ)
  /-- Matches an expression and puts what it finds under a label. -/
  | node (label : κ) (body : Peg σ κ γ)
  /-- Matches an expression and drops what it finds. -/
  | silent (body : Peg σ κ γ)
  /-- Matches an expression if what it finds passes a test. -/
  | checked (test : List (Tree κ) → Bool) (body : Peg σ κ γ)
  /-- Matches an expression in another scope. -/
  | within (change : γ → γ) (body : Peg σ κ γ)
  /-- Matches the empty text if the scope passes a test. -/
  | guard (test : γ → Bool)

namespace Peg

variable {σ κ γ : Type}

/-- Matches an expression at the start of a text, to a depth of at most `depth`. -/
def run (grammar : σ → Peg σ κ γ) :
    Nat → Peg σ κ γ → γ → List Char → Option (List (Tree κ) × List Char)
  | 0, _, _, _ => none
  | depth + 1, peg, scope, text =>
    match peg with
    | empty => some ([], text)
    | token scan =>
      match scan text with
      | some rest => some ([], rest)
      | none => none
    | lexeme scan =>
      match scan text with
      | some (found, rest) => some ([.leaf found], rest)
      | none => none
    | both first second =>
      match run grammar depth first scope text with
      | some (before, rest) =>
        match run grammar depth second scope rest with
        | some (after, rest) => some (before ++ after, rest)
        | none => none
      | none => none
    | either first second =>
      match run grammar depth first scope text with
      | some result => some result
      | none => run grammar depth second scope text
    | many body =>
      match run grammar depth body scope text with
      | some (found, rest) =>
        match run grammar depth (many body) scope rest with
        | some (more, rest) => some (found ++ more, rest)
        | none => none
      | none => some ([], text)
    | ahead body =>
      match run grammar depth body scope text with
      | some _ => some ([], text)
      | none => none
    | absent body =>
      match run grammar depth body scope text with
      | some _ => none
      | none => some ([], text)
    | symbol name => run grammar depth (grammar name) scope text
    | node label body =>
      match run grammar depth body scope text with
      | some (found, rest) => some ([.node label found], rest)
      | none => none
    | silent body =>
      match run grammar depth body scope text with
      | some (_, rest) => some ([], rest)
      | none => none
    | checked test body =>
      match run grammar depth body scope text with
      | some (found, rest) => if test found then some (found, rest) else none
      | none => none
    | within change body => run grammar depth body (change scope) text
    | guard test => if test scope then some ([], text) else none

/-- Matches expressions one after the other. -/
def seq : List (Peg σ κ γ) → Peg σ κ γ
  | [] => empty
  | [peg] => peg
  | peg :: pegs => both peg (seq pegs)

/-- Matches the first of some expressions that matches. -/
def alt : List (Peg σ κ γ) → Peg σ κ γ
  | [] => token fun _ => none
  | [peg] => peg
  | peg :: pegs => either peg (alt pegs)

/-- Matches an expression or the empty text. -/
def opt (peg : Peg σ κ γ) : Peg σ κ γ := either peg empty

/-- Matches some expressions one after the other, or the empty text. -/
def optSeq (pegs : List (Peg σ κ γ)) : Peg σ κ γ := opt (seq pegs)

/-- Gives a label with nothing under it. -/
def mark (label : κ) : Peg σ κ γ := node label empty

end Peg

end PugLint.Script
