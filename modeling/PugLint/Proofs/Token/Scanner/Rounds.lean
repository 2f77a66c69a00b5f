import PugLint.Token.Scanner

/-!
# Loops as recursions

A loop is a round and, if the round has not ended the loop, the loop again from where it goes on.
For each loop of the scanner this is an equation in which the loop calls itself; whatever is proved
about the loop unfolds it there.

* `Scanner.loop_eq`, `Scanner.Scan.loop_eq`: a loop is a round and what follows it.
-/

namespace PugLint

namespace Scanner

open Lexer (isQuote isSeparator)

section Loops

variable {σ α : Type}

open Classical in
/-- A loop is a round and, if the loop is not over, what follows it. -/
theorem loop_eq (round : σ → Option (α ⊕ σ)) (s : σ) :
    loop round s = round s >>= Sum.elim some (loop round) := by
  ext result
  have hfix (s : σ) : loop round s = some result ↔ result ∈ (partialRound round).fix s := by
    rw [loop, ← Option.mem_def]
    exact Part.mem_toOption
  have hround (outcome : α ⊕ σ) : outcome ∈ partialRound round s ↔ round s = some outcome := by
    rw [partialRound, Part.mem_ofOption, Option.mem_def]
  rw [hfix, PFun.mem_fix_iff]
  simp only [hround, ← hfix]
  rcases round s with _ | ⟨result' | next⟩ <;> simp

theorem Scan.loop_eq (round : σ → Scan (α ⊕ σ)) (s : σ) :
    Scan.loop round s = round s >>= Sum.elim pure (Scan.loop round) := by
  refine (Scanner.loop_eq _ s).trans ?_
  change _ = Option.bind (round s).run _
  rcases (round s).run with _ | ⟨fault | ⟨result | next⟩⟩ <;> rfl

end Loops

theorem ite_bind {m : Type → Type} [Bind m] {α β : Type} (p : Prop) [Decidable p] (x y : m α)
    (f : α → m β) :
    (if p then x else y) >>= f = if p then x >>= f else y >>= f :=
  apply_ite (· >>= f) p x y

variable (text : List Char)

theorem skipWhile_def (p : Char → Bool) (s : State) :
    skipWhile text p s =
      if (byte? text s.index).any p then skipWhile text p (s.skip 1) else some s := by
  rw [skipWhile, loop_eq, ite_bind]
  rfl

theorem skipString_def (quote : Char) (start : Position) (s : State) :
    skipString text quote start s =
      (match byte? text s.index with
      | none => throw (.unterminatedString start)
      | some c =>
        if c == '\\' then
          if (byte? text (s.index + 1)).isSome then do
            let s ← bump text (s.skip 1)
            skipString text quote start s
          else skipString text quote start (s.skip 1)
        else if c == quote then return s.skip 1
        else do
          let s ← bump text s
          skipString text quote start s) := by
  rw [skipString, Scan.loop_eq, stringRound]
  cases byte? text s.index with
  | none => rfl
  | some c =>
    simp only [ite_bind, bind_assoc]
    rfl

theorem skipBalanced_def (start : Position) (depth : Nat) (s : State) :
    skipBalanced text start depth s =
      (match byte? text s.index with
      | none => throw (.unclosedAttributeBlock start)
      | some c =>
        if isQuote c then do
          let opened ← s.place?
          let s ← skipString text c opened (s.skip 1)
          skipBalanced text start depth s
        else if c == '(' then do
          let s ← bump text s
          skipBalanced text start (depth + 1) s
        else if c == ')' then do
          let depth ← minus? depth 1
          if depth == 0 then return s.skip 1
          else
            let s ← bump text s
            skipBalanced text start depth s
        else do
          let s ← bump text s
          skipBalanced text start depth s) := by
  rw [skipBalanced, Scan.loop_eq, balancedRound]
  cases byte? text s.index with
  | none => rfl
  | some c =>
    simp only [ite_bind, bind_assoc]
    rfl

theorem skipName_def (depth : Nat) (s : State) :
    skipName text depth s =
      match byte? text s.index with
      | none => some s
      | some c =>
        if c == '[' then skipName text (depth + 1) (s.skip 1)
        else if c == ']' then skipName text (depth - 1) (s.skip 1)
        else if c == '\n' || c == '\r' then some s
        else if 0 < depth then skipName text depth (s.skip 1)
        else if c == ' ' || c == '\t' || c == '=' || c == ',' || c == ')' then some s
        else if c == '!' && byte? text (s.index + 1) == some '=' then some s
        else skipName text depth (s.skip 1) := by
  rw [skipName, loop_eq, nameRound]
  cases byte? text s.index with
  | none => rfl
  | some c =>
    simp only [ite_bind]
    rfl

theorem skipValue_def (depth : Nat) (s : State) :
    skipValue text depth s =
      (match byte? text s.index with
      | none => return s
      | some c =>
        if isQuote c then do
          let opened ← s.place?
          let s ← skipString text c opened (s.skip 1)
          skipValue text depth s
        else if c == '(' || c == '[' || c == '\x7b' then do
          let s ← bump text s
          skipValue text (depth + 1) s
        else if (c == ')' || c == ']' || c == '\x7d') && 0 < depth then do
          let depth ← minus? depth 1
          let s ← bump text s
          skipValue text depth s
        else if depth == 0 && (c == ')' || c == ',' || Text.isAsciiBlank c) then return s
        else do
          let s ← bump text s
          skipValue text depth s) := by
  rw [skipValue, Scan.loop_eq, valueRound]
  cases byte? text s.index with
  | none => rfl
  | some c =>
    simp only [ite_bind, bind_assoc]
    rfl

theorem skipSeparators_def (s : State) :
    skipSeparators text s =
      (if (byte? text s.index).any isSeparator then do
        let s ← bump text s
        skipSeparators text s
      else some s) := by
  rw [skipSeparators, loop_eq, ite_bind, bind_assoc]
  rfl

theorem lexAttributes_def (start : Position) (s : State) :
    lexAttributes text start s = (do
      let s ← skipSeparators text s
      match byte? text s.index with
      | none => throw (.unclosedAttributeBlock start)
      | some c =>
        if c == ')' then (s.skip 1).mark s .endAttributes
        else
          let s ← lexAttribute text s
          lexAttributes text start s) := by
  rw [lexAttributes, Scan.loop_eq, attributesRound, bind_assoc]
  refine bind_congr fun s => ?_
  cases byte? text s.index with
  | none => rfl
  | some c =>
    simp only [ite_bind, bind_assoc]
    exact if_congr Iff.rfl (bind_pure _) rfl

theorem backUp_def (start : Nat) (s : State) :
    backUp text start s =
      (if start + 1 < s.index then do
        let last ← minus? s.index 1
        let c ← byte? text last
        if c == ':' || c == '-' then backUp text start (s.goTo last) else return s
      else some s) := by
  rw [backUp, loop_eq]
  simp only [ite_bind, bind_assoc]
  rfl

theorem lexElement_def (started : Bool) (s : State) :
    lexElement text started s =
      elementRound text (started, s) >>=
        Sum.elim pure fun next => lexElement text next.1 next.2 :=
  Scan.loop_eq _ _

theorem seekLine_def (s : State) :
    seekLine text s = (do
      let s ← lineBreak text s
      let width := measureIndent text s.index
      if endsLine text (s.index + width) then
        let s := s.skip width
        if (bytes text).length ≤ s.index then return (none, s) else seekLine text s
      else return (some width, s)) := by
  rw [seekLine, loop_eq]
  simp only [ite_bind, bind_assoc]
  rfl

theorem nextIndent_def (index : Nat) :
    nextIndent text index =
      (if (bytes text).length ≤ index then some none
      else do
        let c ← byte? text index
        let index := (if c == '\r' then index + 1 else index) + 1
        let width := measureIndent text index
        if endsLine text (index + width) then
          let index ← lineEnd? text (index + width)
          nextIndent text index
        else return some width) := by
  rw [nextIndent, loop_eq]
  simp only [ite_bind, bind_assoc]
  rfl

theorem lexRawLines_def (parent : Nat) (base : Option Nat) (s : State) :
    lexRawLines text parent base s = (do
      let next ← nextIndent text s.index
      if next.any (parent < ·) then
        let s ← lineBreak text s
        let width := measureIndent text s.index
        if endsLine text (s.index + width) then lexRawLines text parent base (s.skip width)
        else
          let s ← lexRawLine text base width s
          lexRawLines text parent (some (base.getD width)) s
      else return (base, s)) := by
  rw [lexRawLines, loop_eq, rawRound]
  simp only [ite_bind, bind_assoc]
  rfl

theorem lexLines_def (opensBlock : Bool) (s : State) :
    lexLines text opensBlock s =
      (if s.index < (bytes text).length then do
        let s ← lexBlock text opensBlock s
        if opensBlock && (bytes text).length ≤ s.index then return s
        else
          let (more, s) ← lexIndentation text s
          if more then
            let (opensBlock, s) ← lexLine text s
            lexLines text opensBlock s
          else return s
      else return s) := by
  rw [lexLines, Scan.loop_eq, lineRound]
  simp only [ite_bind, bind_assoc]
  rfl

end Scanner

end PugLint
