import PugLint.Proofs.Element.Following
import PugLint.Proofs.Element.Intervals
import PugLint.Proofs.Forest.Building
import PugLint.Proofs.Token.Outline

/-!
# Indentation and open elements

The builder knows the depth of lines as a number of levels, not as widths. Yet an element
stays open as long as the lines behind its own are wider, as the widths of the open levels
grow from one to the next.

* `IsLastUpTo`, `StaysDeeper`: the line of an element, and how long it reaches;
* `ElementTree.Builder.Shuts`: the elements from a level on end;
* `ElementTree.Builder.Effect`, `ElementTree.Builder.Follows.effect`: what a move of the
  reader does to the elements;
* `ElementTree.Builder.Indented`: the open elements are told by the widths of lines.
-/

namespace PugLint

open Lexer

/-! ### Lines of elements -/

/-- The number of the line on which a token starts. -/
def lineAt (tokens : List Token) (i : Nat) : Nat :=
  (tokens[i]?.map fun token => token.span.start.line).getD 0

/-- A token that is not there for the layout of lines. -/
def IsContentAt (tokens : List Token) (i : Nat) : Prop :=
  ∃ token, tokens[i]? = some token ∧ token.kind.isLayout = false

/-- The last of some lines that stands on a line of the text or in front of it. -/
structure IsLastUpTo (lines : List ContentLine) (number : Nat) (line : ContentLine) : Prop where
  /-- It is one of them. -/
  mem : line ∈ lines
  /-- It does not stand behind. -/
  le : line.number ≤ number
  /-- It is the last one. -/
  last : ∀ other ∈ lines, other.number ≤ number → other.number ≤ line.number

/-- The lines behind a line, up to a line of the text, are wider. -/
def StaysDeeper (lines : List ContentLine) (line : ContentLine) (number : Nat) : Prop :=
  ∀ other ∈ lines, line.number < other.number → other.number ≤ number → line.width < other.width

section Lines

variable {lines : List ContentLine} {line new : ContentLine} {number : Nat}

theorem isLastUpTo_concat (h : number < new.number) :
    IsLastUpTo (lines ++ [new]) number line ↔ IsLastUpTo lines number line := by
  constructor
  · rintro ⟨hmem, hle, hlast⟩
    refine ⟨?_, hle, fun other hother => hlast other (List.mem_append_left _ hother)⟩
    refine (List.mem_append.1 hmem).resolve_right fun hnew => ?_
    rw [List.mem_singleton.1 hnew] at hle
    omega
  · rintro ⟨hmem, hle, hlast⟩
    refine ⟨List.mem_append_left _ hmem, hle, fun other hother hnumber => ?_⟩
    rcases List.mem_append.1 hother with hother | hother
    · exact hlast other hother hnumber
    · rw [List.mem_singleton.1 hother] at hnumber
      omega

theorem staysDeeper_concat_of_lt (h : number < new.number) :
    StaysDeeper (lines ++ [new]) line number ↔ StaysDeeper lines line number := by
  rw [StaysDeeper, StaysDeeper, List.forall_mem_append, List.forall_mem_singleton,
    and_iff_left fun _ hle => by omega]

theorem staysDeeper_concat (hle : ∀ other ∈ lines, other.number ≤ number)
    (hline : line.number ≤ number) (h : number < new.number) :
    StaysDeeper (lines ++ [new]) line new.number ↔
      StaysDeeper lines line number ∧ line.width < new.width := by
  rw [StaysDeeper, List.forall_mem_append, List.forall_mem_singleton]
  refine and_congr ?_ ?_
  · refine forall₂_congr fun other hother => ?_
    have := hle other hother
    exact imp_congr_right fun _ => ⟨fun h _ => h (by omega), fun h _ => h (by omega)⟩
  · exact ⟨fun h => h (by omega) (Nat.le_refl _), fun h _ _ => h⟩

/-- Behind all lines, it does not matter where. -/
theorem staysDeeper_congr {number' : Nat} (h : ∀ other ∈ lines, other.number ≤ number)
    (h' : ∀ other ∈ lines, other.number ≤ number') :
    StaysDeeper lines line number ↔ StaysDeeper lines line number' :=
  forall₂_congr fun other hother =>
    imp_congr_right fun _ => ⟨fun hw _ => hw (h other hother), fun hw _ => hw (h' other hother)⟩

end Lines

/-! ### Widths of levels -/

/-- The widths of the lines at all levels, from the outermost on. -/
def widthsOf (levels : List Nat) : List Nat :=
  0 :: levels.reverse

theorem getElem?_widthsOf_length (levels : List Nat) :
    (widthsOf levels)[levels.length]? = some (levels.headD 0) := by
  cases levels with
  | nil => rfl
  | cons width levels =>
    rw [widthsOf, List.length_cons, List.getElem?_cons_succ, List.reverse_cons,
      ← List.length_reverse, List.getElem?_concat_length]
    rfl

theorem lt_iff_of_pairwise {xs : List Nat} (h : xs.Pairwise (· < ·)) {i j x y : Nat}
    (hi : xs[i]? = some x) (hj : xs[j]? = some y) : i < j ↔ x < y := by
  have hlt {i j x y : Nat} (hi : xs[i]? = some x) (hj : xs[j]? = some y) (hij : i < j) : x < y := by
    obtain ⟨hi', rfl⟩ := List.getElem?_eq_some_iff.1 hi
    obtain ⟨hj', rfl⟩ := List.getElem?_eq_some_iff.1 hj
    exact List.pairwise_iff_getElem.1 h i j hi' hj' hij
  refine ⟨hlt hi hj, fun hxy => ?_⟩
  rcases Nat.lt_trichotomy i j with h | rfl | h
  · exact h
  · cases hi.symm.trans hj
    exact absurd hxy (Nat.lt_irrefl _)
  · exact absurd hxy (Nat.lt_asymm (hlt hj hi h))

theorem Lexer.Indents.isLayout_eq_true {levels levels' : List Nat} {width : Nat}
    {kinds : List TokenKind} (h : Indents levels width kinds levels') :
    ∀ kind ∈ kinds, kind.isLayout = true := by
  cases h with
  | deeper | same => exact List.forall_mem_singleton.2 rfl
  | outer => exact fun kind hkind => List.eq_of_mem_replicate hkind ▸ rfl

/-- What a line does to the widths of the levels: it leaves those that are narrower. -/
theorem Lexer.Indents.widths {levels levels' : List Nat} {width : Nat} {kinds : List TokenKind}
    (h : Indents levels width kinds levels') (hsorted : (widthsOf levels).Pairwise (· < ·)) :
    (widthsOf levels').Pairwise (· < ·) ∧ levels'.headD 0 = width ∧
      ∀ level u, (widthsOf levels)[level]? = some u →
        (level < levels'.length ↔ u < width) ∧
        (level < levels'.length → (widthsOf levels')[level]? = some u) := by
  have hlast := getElem?_widthsOf_length levels
  cases h with
  | deeper hdeeper =>
    have hwidths : widthsOf (width :: levels) = widthsOf levels ++ [width] := by
      rw [widthsOf, List.reverse_cons]
      rfl
    have hlt {level u : Nat} (hu : (widthsOf levels)[level]? = some u) :
        level < levels.length + 1 := by
      have := (List.getElem?_eq_some_iff.1 hu).1
      rwa [widthsOf, List.length_cons, List.length_reverse] at this
    have hle {level u : Nat} (hu : (widthsOf levels)[level]? = some u) : u < width := by
      refine Nat.lt_of_le_of_lt ?_ hdeeper
      refine Nat.not_lt.1 fun h => ?_
      have := (lt_iff_of_pairwise hsorted hlast hu).2 h
      have := hlt hu
      omega
    refine ⟨?_, rfl, fun level u hu => ⟨iff_of_true (hlt hu) (hle hu), fun _ => ?_⟩⟩
    · rw [hwidths, List.pairwise_append]
      refine ⟨hsorted, List.pairwise_singleton _ _, fun u hu => ?_⟩
      obtain ⟨level, hu⟩ := List.mem_iff_getElem?.1 hu
      exact List.forall_mem_singleton.2 (hle hu)
    · rw [hwidths, List.getElem?_append_left (List.getElem?_eq_some_iff.1 hu).1, hu]
  | same hwidth =>
    refine ⟨hsorted, hwidth.symm, fun level u hu => ⟨?_, fun _ => hu⟩⟩
    rw [hwidth]
    exact lt_iff_of_pairwise hsorted hu hlast
  | @outer closed _ _ hne hwidth hclosed =>
    have hwidths : widthsOf (closed ++ levels') = widthsOf levels' ++ closed.reverse := by
      rw [widthsOf, List.reverse_append]
      rfl
    have hlast := getElem?_widthsOf_length levels'
    rw [← hwidth] at hlast
    have hlast' : (widthsOf (closed ++ levels'))[levels'.length]? = some width := by
      rw [hwidths, List.getElem?_append_left (List.getElem?_eq_some_iff.1 hlast).1, hlast]
    refine ⟨?_, hwidth.symm, fun level u hu =>
      ⟨lt_iff_of_pairwise hsorted hu hlast', fun hlt => ?_⟩⟩
    · rw [hwidths] at hsorted
      exact (List.pairwise_append.1 hsorted).1
    · have hlength : level < (widthsOf levels').length := by
        rw [widthsOf, List.length_cons, List.length_reverse]
        omega
      rwa [hwidths, List.getElem?_append_left hlength] at hu

namespace ElementTree.Builder

/-! ### Elements that end -/

/-- The open elements have the levels of their lines, the innermost the greatest. -/
def Levelled (b : Builder) : Prop :=
  b.stack.Pairwise fun inner outer => outer.2 ≤ inner.2

theorem closeFrom_eq_filter {stack : List (Nat × Nat)}
    (h : stack.Pairwise fun inner outer => outer.2 ≤ inner.2) (nodes : Array Element)
    (level token : Nat) :
    (closeFrom nodes level token stack).2 = stack.filter (·.2 < level) := by
  induction stack generalizing nodes with
  | nil => rfl
  | cons entry stack ih =>
    obtain ⟨hentry, hstack⟩ := List.pairwise_cons.1 h
    rw [closeFrom, List.filter_cons]
    by_cases hlt : entry.2 < level
    · have hall : ∀ other ∈ stack, decide (other.2 < level) = true := fun other hother =>
        decide_eq_true (Nat.lt_of_le_of_lt (hentry other hother) hlt)
      rw [if_pos hlt, if_pos (decide_eq_true hlt), List.filter_eq_self.2 hall]
    · rw [if_neg hlt, if_neg (by simpa using hlt), ih hstack]

/-- The open elements whose lines are at a level or deeper end, at tokens that have not been
    read yet. -/
structure Shuts (b : Builder) (level : Nat) (c : Builder) : Prop where
  /-- The elements that stay open. -/
  stack : c.stack = b.stack.filter (·.2 < level)
  /-- Tokens are read. -/
  size_le : b.owners.size ≤ c.owners.size
  /-- The elements have the same tokens as before of those that had been read, and the
      closed ones end at a token that is read. -/
  interval {id : Nat} {interval : Nat × Nat} (h : (intervalsOf c.nodes)[id]? = some interval) :
    ∃ old, (intervalsOf b.nodes)[id]? = some old ∧ interval.1 = old.1 ∧
      (∀ i < b.owners.size,
        (id ∈ c.openIds ∨ i < interval.2 ↔ id ∈ b.openIds ∨ i < old.2)) ∧
      ((id ∉ b.openIds → old.2 ≤ b.owners.size) → id ∉ c.openIds →
        interval.2 ≤ c.owners.size)

variable {b c d : Builder} {level : Nat}

theorem Shuts.trans {level' : Nat} (h : b.Shuts level c) (h' : c.Shuts level' d)
    (hle : level' ≤ level) : b.Shuts level' d where
  stack := by
    rw [h'.stack, h.stack, List.filter_filter]
    refine List.filter_congr fun entry _ => ?_
    rw [← Bool.decide_and, decide_eq_decide]
    omega
  size_le := Nat.le_trans h.size_le h'.size_le
  interval hid := by
    obtain ⟨middle, hmiddle, hstart', hcovers', hended'⟩ := h'.interval hid
    obtain ⟨old, hold, hstart, hcovers, hended⟩ := h.interval hmiddle
    refine ⟨old, hold, hstart'.trans hstart, fun i hi => ?_, fun hbounds => ?_⟩
    · exact (hcovers' i (Nat.lt_of_lt_of_le hi h.size_le)).trans (hcovers i hi)
    · exact hended' (hended hbounds)

/-- The elements end at the next token. -/
theorem shuts_closeTo (h : b.Levelled) (hnodes : c.nodes = (b.closeTo level b.owners.size).nodes)
    (hstack : c.stack = (b.closeTo level b.owners.size).stack)
    (howners : c.owners.size = b.owners.size + 1) : b.Shuts level c := by
  obtain ⟨closed, hcloses⟩ := b.exists_closes level b.owners.size
  have hopen := hcloses.openIds_eq
  have hintervals := hcloses.intervalsOf_eq
  rw [← hnodes] at hintervals
  have hids : (b.closeTo level b.owners.size).openIds = c.openIds := by
    rw [openIds, openIds, hstack]
  rw [hids] at hopen
  refine ⟨?_, by omega, fun {id interval} hid => ?_⟩
  · rw [hstack]
    exact closeFrom_eq_filter h _ _ _
  · rw [hintervals] at hid
    obtain ⟨old, hold, rfl⟩ := endedAt_cases hid
    refine ⟨old, hold, rfl, fun i hi => ?_, fun hbounds hid => ?_⟩
    · rw [hopen, List.mem_append]
      by_cases hended : id ∈ closed.map Prod.fst
      · rw [if_pos hended]
        exact iff_of_true (.inr hi) (.inl (.inl hended))
      · rw [if_neg hended, or_iff_right hended]
    · dsimp only
      split
      · omega
      · rename_i hended
        have := hbounds (by rw [hopen, List.mem_append]; exact not_or.2 ⟨hended, hid⟩)
        omega

theorem Levelled.filter (h : b.Levelled) (hstack : c.stack = b.stack.filter (·.2 < level)) :
    c.Levelled := by
  rw [Levelled, hstack]
  exact List.Pairwise.filter _ h

/-- Levels that end one by one. -/
theorem shuts_outdents (n : Nat) (h : b.Levelled) :
    b.Shuts (b.level - (n + 1)) (b.steps b.owners.size (List.replicate (n + 1) .outdent)) := by
  induction n generalizing b with
  | zero => exact shuts_closeTo h rfl rfl (Array.size_push _)
  | succ n ih =>
    have hfirst : b.Shuts (b.level - 1) (b.step b.owners.size .outdent) :=
      shuts_closeTo h rfl rfl (Array.size_push _)
    have hlater := ih (h.filter hfirst.stack)
    rw [size_owners_step] at hlater
    have hlevel : (b.step b.owners.size .outdent).level - (n + 1) = b.level - (n + 1 + 1) := by
      change b.level - 1 - (n + 1) = _
      omega
    rw [hlevel] at hlater
    exact hfirst.trans hlater (by omega)

/-- All elements end with the template. -/
theorem shuts_finish (n : Nat) (h : b.Levelled) (hordered : b.Ordered) :
    b.Shuts 0 (b.steps b.owners.size (List.replicate n .outdent ++ [.eos])) := by
  cases n with
  | zero => exact shuts_closeTo h rfl rfl (Array.size_push _)
  | succ n =>
    have hlevels := shuts_outdents n h
    have hsize := (hordered.steps (List.replicate (n + 1) .outdent)).2
    rw [steps_append, ← hsize]
    exact hlevels.trans (shuts_closeTo (h.filter hlevels.stack) rfl rfl (Array.size_push _))
      (Nat.zero_le _)

/-- The elements that end at the start of a line. -/
theorem shuts_indents {levels levels' : List Nat} {width : Nat} {kinds : List TokenKind}
    (h : Indents levels width kinds levels') (hlevelled : b.Levelled)
    (hlevel : b.level = levels.length) (hstack : ∀ entry ∈ b.stack, entry.2 ≤ b.level)
    (hraw : b.inRawText = false) : b.Shuts levels'.length (b.steps b.owners.size kinds) := by
  cases h with
  | deeper =>
    refine ⟨?_, ?_, fun {id interval} hid => ⟨interval, hid, rfl, fun i _ => Iff.rfl, ?_⟩⟩
    · refine (List.filter_eq_self.2 fun entry hentry => ?_).symm
      have := hstack entry hentry
      rw [decide_eq_true_eq, List.length_cons]
      omega
    · exact Nat.le_trans (Nat.le_succ _) (Nat.le_of_eq (Array.size_push _).symm)
    · exact fun hbounds hid => Nat.le_trans (hbounds hid)
        (Nat.le_trans (Nat.le_succ _) (Nat.le_of_eq (Array.size_push _).symm))
  | same =>
    rw [← hlevel, steps, steps, step_newline hraw]
    exact shuts_closeTo hlevelled rfl rfl (Array.size_push _)
  | @outer closed _ _ hne =>
    obtain ⟨n, hn⟩ := Nat.exists_eq_succ_of_ne_zero (mt List.length_eq_zero_iff.1 hne)
    have hlength : levels'.length = b.level - (n + 1) := by
      rw [hlevel, List.length_append, hn]
      omega
    rw [hn, hlength]
    exact shuts_outdents n hlevelled

/-! ### Moves -/

/-- The same elements are open, and no element has been added or has ended. -/
structure Keeps (b c : Builder) : Prop where
  /-- The elements. -/
  intervals : intervalsOf c.nodes = intervalsOf b.nodes
  /-- The open elements. -/
  stack : c.stack = b.stack
  /-- The element of the line. -/
  current : c.current = b.current
  /-- A token is read. -/
  size : c.owners.size = b.owners.size + 1

/-- What a move of the reader in front of the end of the template does to the elements. -/
inductive Effect (b : Builder) : Lexer.State → Piece → Lexer.State → Builder → Prop where
  /-- There is no token. -/
  | idle {s t : Lexer.State} {piece : Piece} (hkinds : piece.kinds = [])
      (hlevels : t.levels = s.levels) (hs : s.stage ≠ .lineEnd false) (ht : t.stage ≠ .content)
      (hhead : t.stage = .head false → s.stage = .content) : Effect b s piece t b
  /-- A token opens an element. -/
  | opens {s t : Lexer.State} {piece : Piece} {kind : TokenKind} (hkinds : piece.kinds = [kind])
      (hkind : kind.isLayout = false) (hlevels : t.levels = s.levels)
      (hs : s.stage = .content ∨ s.stage = .head false)
      (ht : t.stage = .head true) (name : String) (written : ElementKind)
      (tagToken : Option Nat) :
      Effect b s piece t (b.openElement b.owners.size name written tagToken)
  /-- A colon, behind which an element may follow. -/
  | colon {s t : Lexer.State} {piece : Piece} {c : Builder} (hkinds : piece.kinds = [.colon])
      (hlevels : t.levels = s.levels) (hs : s.stage = .head true) (ht : t.stage = .head false)
      (h : b.Keeps c) (hcolon : c.afterColon = true) : Effect b s piece t c
  /-- Any other token of a line. -/
  | keeps {s t : Lexer.State} {piece : Piece} {kind : TokenKind} {c : Builder}
      (hkinds : piece.kinds = [kind]) (hlevels : t.levels = s.levels)
      (hs : s.stage ≠ .lineEnd false) (ht : t.stage ≠ .content) (ht' : t.stage ≠ .head false)
      (h : b.Keeps c) : Effect b s piece t c
  /-- A line starts. -/
  | next {s t : Lexer.State} {piece : Piece} {opensBlock : Bool}
      (hindents : Indents s.levels piece.written.length piece.kinds t.levels)
      (hs : s.stage = .lineEnd opensBlock) (ht : t.stage = .content)
      (hlines : '\n' ∈ piece.skipped) (hwritten : '\n' ∉ piece.written)
      (hbehind : piece.behind = []) :
      Effect b s piece t (b.steps b.owners.size piece.kinds)

theorem keeps_own (hnodes : c.nodes = b.nodes) (hstack : c.stack = b.stack)
    (hcurrent : c.current = b.current) {owner : Option Nat}
    (howners : c.owners = b.owners.push owner) : b.Keeps c :=
  ⟨congrArg intervalsOf hnodes, hstack, hcurrent, by rw [howners, Array.size_push]⟩

/-- Every move has one of the effects. -/
theorem Follows.effect {s t : Lexer.State} {piece : Piece} {rest : List Char} (h : b.Follows s)
    (hmove : Move s piece rest t) (hs : s.stage ≠ .start) (ht : t.stage ≠ .done) :
    b.Effect s piece t (b.steps b.owners.size piece.kinds) := by
  obtain ⟨hlevel, hstage⟩ := h
  cases hmove with
  | start => exact absurd rfl hs
  | bar => exact .keeps rfl rfl nofun nofun nofun (keeps_own rfl rfl rfl rfl)
  | whole h =>
    refine .keeps rfl rfl nofun nofun nofun ?_
    change b.Keeps (b.step _ _)
    rw [step_wholeLine h]
    exact keeps_own rfl rfl rfl rfl
  | call =>
    exact .opens (by rfl) rfl (by rfl) (.inl (by rfl)) (by rfl) (String.ofList _) .mixin none
  | element => exact .idle rfl rfl nofun nofun fun _ => rfl
  | ended => exact .idle rfl rfl nofun nofun nofun
  | tag =>
    exact .opens (by rfl) rfl (by rfl) (.inr (by rfl)) (by rfl) (String.ofList _) .tag (some _)
  | @literal _ started _ kind name _ hmarker =>
    change b.Effect _ _ _ (b.step b.owners.size (kind (String.ofList name)))
    rw [step_literal hmarker hstage]
    cases started with
    | false =>
      have hkind : (kind (String.ofList name)).isLayout = false := by cases hmarker <;> rfl
      exact .opens (by rfl) hkind (by rfl) (.inr (by rfl)) (by rfl) "div" .implicit none
    | true => exact .keeps rfl rfl nofun nofun nofun (keeps_own rfl rfl rfl rfl)
  | colon => exact .colon rfl rfl rfl rfl (keeps_own rfl rfl rfl rfl) rfl
  | dot | opens | spread | slash | closes | raw | rawText | rawClose | text | interpolation =>
    exact .keeps rfl rfl nofun nofun nofun (keeps_own rfl rfl rfl rfl)
  | code h => cases h <;> exact .keeps rfl rfl nofun nofun nofun (keeps_own rfl rfl rfl rfl)
  | trailing => exact .idle rfl rfl nofun nofun nofun
  | listed _ _ h =>
    obtain ⟨name, value, escaped, rfl⟩ := h.exists_eq
    obtain ⟨id, hid, hstep⟩ := step_attribute b b.owners.size name value escaped hstage.2.1
    refine .keeps rfl rfl nofun nofun nofun ?_
    change b.Keeps (b.step b.owners.size (.attribute name value escaped))
    rw [hstep]
    exact ⟨map_modify _ _ fun _ => rfl, rfl, rfl, Array.size_push _⟩
  | next h hne _ _ hindents =>
    exact .next hindents rfl rfl (h.lines.newline_mem hne) (newline_not_mem_of_blank h.blank) rfl
  | finish => exact absurd rfl ht
  | rawNext =>
    have hraw : b.inRawText = true := hstage
    refine .keeps rfl rfl nofun nofun nofun ?_
    change b.Keeps (b.step b.owners.size .newline)
    rw [step, if_pos hraw]
    exact keeps_own rfl rfl rfl rfl

/-! ### Widths and open elements -/

/-- An element on a line, after the tokens up to a line of the text: it is open, and has
    further tokens, as long as the lines are wider. -/
structure Fits (tokens : List Token) (lines : List ContentLine) (b : Builder) (levels : List Nat)
    (number id : Nat) (interval : Nat × Nat) (line : ContentLine) : Prop where
  /-- The line of the element. -/
  home : IsLastUpTo lines (lineAt tokens interval.1) line
  /-- The open elements. -/
  opened : id ∈ b.openIds ↔ StaysDeeper lines line number
  /-- The level of an open element is that of its line. -/
  level : ∀ level, (id, level) ∈ b.stack → (widthsOf levels)[level]? = some line.width
  /-- The tokens of the element. -/
  covers : ∀ i, interval.1 ≤ i → i < b.owners.size → IsContentAt tokens i →
    (id ∈ b.openIds ∨ i < interval.2 ↔ StaysDeeper lines line (lineAt tokens i))
  /-- The end of a closed element. -/
  ended : id ∉ b.openIds → interval.2 ≤ b.owners.size

/-- The open elements, and the tokens of all elements, are told by the widths of the lines
    that have been read. -/
structure Indented (tokens : List Token) (lines : List ContentLine) (b : Builder)
    (levels : List Nat) (number : Nat) : Prop where
  /-- The levels of the open elements. -/
  levelled : b.Levelled
  /-- The greatest level. -/
  level_le : ∀ entry ∈ b.stack, entry.2 ≤ levels.length
  /-- The widths of the levels. -/
  widths : (widthsOf levels).Pairwise (· < ·)
  /-- The order of the lines. -/
  sorted : lines.Pairwise fun line other => line.number < other.number
  /-- The lines that have been read. -/
  le : ∀ line ∈ lines, line.number ≤ number
  /-- The tokens that have been read. -/
  lineAt_le : ∀ i < b.owners.size, lineAt tokens i ≤ number
  /-- The width of the last line. -/
  width : ∀ line ∈ lines.getLast?, line.width = levels.headD 0
  /-- The elements. -/
  fits {id : Nat} {interval : Nat × Nat} (h : (intervalsOf b.nodes)[id]? = some interval) :
    ∃ line, Fits tokens lines b levels number id interval line

section Steps

variable {tokens : List Token} {lines : List ContentLine} {levels : List Nat}
  {number number' id : Nat} {interval : Nat × Nat} {line : ContentLine}

theorem Indented.mono (h : Indented tokens lines b levels number) (hle : number ≤ number') :
    Indented tokens lines b levels number' where
  levelled := h.levelled
  level_le := h.level_le
  widths := h.widths
  sorted := h.sorted
  le line hline := Nat.le_trans (h.le line hline) hle
  lineAt_le i hi := Nat.le_trans (h.lineAt_le i hi) hle
  width := h.width
  fits hid := by
    obtain ⟨line, hfits⟩ := h.fits hid
    refine ⟨line, hfits.home, hfits.opened.trans ?_, hfits.level, hfits.covers, hfits.ended⟩
    exact staysDeeper_congr h.le fun other hother => Nat.le_trans (h.le other hother) hle

/-- A token on the last line leaves an element as it is. -/
theorem Fits.read (h : Fits tokens lines b levels number id interval line)
    (hopen : id ∈ c.openIds ↔ id ∈ b.openIds)
    (hlevel : ∀ level, (id, level) ∈ c.stack → (id, level) ∈ b.stack)
    (hsize : c.owners.size = b.owners.size + 1)
    (hline : lineAt tokens b.owners.size = number) :
    Fits tokens lines c levels number id interval line where
  home := h.home
  opened := hopen.trans h.opened
  level level hentry := h.level level (hlevel level hentry)
  covers i hstart hi hcontent := by
    rw [hopen]
    rcases Nat.lt_or_eq_of_le (Nat.le_of_lt_succ (hsize ▸ hi)) with hlt | rfl
    · exact h.covers i hstart hlt hcontent
    · rw [hline, ← h.opened]
      refine or_iff_left_of_imp fun hend => ?_
      by_contra hclosed
      have := h.ended hclosed
      omega
  ended hclosed := by
    have := h.ended (mt hopen.2 hclosed)
    omega

/-- A token of the last line that neither opens nor closes an element. -/
theorem Indented.keeps (h : Indented tokens lines b levels number) (hkeeps : b.Keeps c)
    (hline : lineAt tokens b.owners.size = number) : Indented tokens lines c levels number where
  levelled := by
    rw [Levelled, hkeeps.stack]
    exact h.levelled
  level_le := hkeeps.stack ▸ h.level_le
  widths := h.widths
  sorted := h.sorted
  le := h.le
  lineAt_le i hi := by
    rcases Nat.lt_or_eq_of_le (Nat.le_of_lt_succ (hkeeps.size ▸ hi)) with hlt | rfl
    · exact h.lineAt_le i hlt
    · exact Nat.le_of_eq hline
  width := h.width
  fits hid := by
    obtain ⟨line, hfits⟩ := h.fits (hkeeps.intervals ▸ hid)
    have hopen : c.openIds = b.openIds := by rw [openIds, hkeeps.stack, openIds]
    exact ⟨line, hfits.read (hopen ▸ Iff.rfl) (fun _ => hkeeps.stack ▸ id) hkeeps.size hline⟩

/-- A token of the last line that opens an element. -/
theorem Indented.openElement (h : Indented tokens lines b levels number) (hordered : b.Ordered)
    (hlevel : b.level = levels.length) (hne : lines ≠ [])
    (hline : lineAt tokens b.owners.size = number) (name : String) (written : ElementKind)
    (tagToken : Option Nat) :
    Indented tokens lines (b.openElement b.owners.size name written tagToken) levels number := by
  have hintervals := intervalsOf_openElement b b.owners.size name written tagToken
  have hsize : (b.openElement b.owners.size name written tagToken).owners.size =
      b.owners.size + 1 := Array.size_push _
  have hlength : (intervalsOf b.nodes).length = b.nodes.size := by
    rw [intervalsOf, List.length_map, Array.length_toList]
  refine ⟨?_, ?_, h.widths, h.sorted, h.le, fun i hi => ?_, h.width, fun {id interval} hid => ?_⟩
  · exact List.pairwise_cons.2 ⟨fun entry hentry => hlevel ▸ h.level_le entry hentry, h.levelled⟩
  · exact List.forall_mem_cons.2 ⟨Nat.le_of_eq hlevel, h.level_le⟩
  · rw [hsize] at hi
    rcases Nat.lt_or_eq_of_le (Nat.le_of_lt_succ hi) with hlt | rfl
    · exact h.lineAt_le i hlt
    · exact Nat.le_of_eq hline
  · rw [hintervals] at hid
    rcases concat_cases hid with ⟨hlt, hold⟩ | ⟨rfl, rfl⟩
    · obtain ⟨line, hfits⟩ := h.fits hold
      have hother : id ≠ b.nodes.size := by omega
      refine ⟨line, hfits.read ?_ (fun level hentry => ?_) hsize hline⟩
      · exact List.mem_cons.trans (or_iff_right hother)
      · refine (List.mem_cons.1 hentry).resolve_left fun heq => ?_
        exact hother (congrArg Prod.fst heq)
    · -- The new element is on the last line.
      obtain ⟨front, last, rfl⟩ := (List.eq_nil_or_concat lines).resolve_left hne
      rw [List.concat_eq_append] at h ⊢
      have hmem : last ∈ front ++ [last] := List.mem_append_right _ (List.mem_singleton_self _)
      have hlast : ∀ other ∈ front ++ [last], other.number ≤ last.number := by
        refine List.forall_mem_append.2 ⟨fun other hother => ?_, ?_⟩
        · exact Nat.le_of_lt ((List.pairwise_append.1 h.sorted).2.2 other hother last
            (List.mem_singleton_self _))
        · exact List.forall_mem_singleton.2 (Nat.le_refl _)
      have hdeeper (number : Nat) : StaysDeeper (front ++ [last]) last number := by
        intro other hother hlt
        have := hlast other hother
        omega
      have hopened : b.nodes.size ∈
          (b.openElement b.owners.size name written tagToken).openIds := List.mem_cons_self
      rw [hlength]
      refine ⟨last, ⟨hmem, ?_, fun other hother _ => hlast other hother⟩, ?_, ?_, ?_, ?_⟩
      · exact hline ▸ h.le last hmem
      · exact iff_of_true hopened (hdeeper _)
      · intro level hentry
        rcases List.mem_cons.1 hentry with heq | hentry
        · cases heq
          rw [hlevel, getElem?_widthsOf_length, h.width last List.getLast?_concat]
        · -- A number that is new has not been open before.
          have hlt := hordered.openIds_lt _ (List.mem_map_of_mem hentry)
          rw [length_parentsOf] at hlt
          exact absurd hlt (Nat.lt_irrefl _)
      · exact fun i _ _ _ => iff_of_true (.inl hopened) (hdeeper _)
      · exact fun hclosed => absurd hopened hclosed

theorem Ordered.start_lt (h : b.Ordered) (hid : (intervalsOf b.nodes)[id]? = some interval) :
    interval.1 < b.owners.size := by
  rw [getElem?_intervalsOf] at hid
  obtain ⟨element, helement, rfl⟩ := Option.map_eq_some_iff.1 hid
  exact h.token_lt helement

/-- A line starts, and some elements end. -/
theorem Indented.next (h : Indented tokens lines b levels number) (hordered : b.Ordered)
    {levels' : List Nat} {width : Nat} {kinds : List TokenKind}
    (hindents : Indents levels width kinds levels')
    (hlevel : b.level = levels.length) (hraw : b.inRawText = false) {new : ContentLine}
    (hwidth : new.width = width) (hnew : number < new.number)
    (hlayout : ∀ i, b.owners.size ≤ i → i < (b.steps b.owners.size kinds).owners.size →
      lineAt tokens i ≤ new.number ∧ ¬IsContentAt tokens i) :
    Indented tokens (lines ++ [new]) (b.steps b.owners.size kinds) levels' new.number := by
  obtain ⟨hsorted, hhead, hwidths⟩ := hindents.widths h.widths
  have hshuts := shuts_indents hindents h.levelled hlevel (hlevel ▸ h.level_le) hraw
  have hmem {entry : Nat × Nat} : entry ∈ (b.steps b.owners.size kinds).stack ↔
      entry ∈ b.stack ∧ entry.2 < levels'.length := by
    rw [hshuts.stack, List.mem_filter, decide_eq_true_eq]
  have hopen {id : Nat} : id ∈ (b.steps b.owners.size kinds).openIds ↔
      ∃ level, (id, level) ∈ b.stack ∧ level < levels'.length := by
    rw [openIds, List.mem_map]
    constructor
    · rintro ⟨⟨_, level⟩, hentry, rfl⟩
      exact ⟨level, hmem.1 hentry⟩
    · rintro ⟨level, hentry⟩
      exact ⟨(id, level), hmem.2 hentry, rfl⟩
  refine ⟨h.levelled.filter hshuts.stack, fun entry hentry => ?_, hsorted, ?_, ?_, ?_, ?_, ?_⟩
  · exact Nat.le_of_lt (hmem.1 hentry).2
  · refine List.pairwise_append.2 ⟨h.sorted, List.pairwise_singleton _ _, fun line hline => ?_⟩
    exact List.forall_mem_singleton.2 (Nat.lt_of_le_of_lt (h.le line hline) hnew)
  · refine List.forall_mem_append.2 ⟨fun line hline => ?_, ?_⟩
    · exact Nat.le_of_lt (Nat.lt_of_le_of_lt (h.le line hline) hnew)
    · exact List.forall_mem_singleton.2 (Nat.le_refl _)
  · intro i hi
    rcases Nat.lt_or_ge i b.owners.size with hlt | hge
    · exact Nat.le_of_lt (Nat.lt_of_le_of_lt (h.lineAt_le i hlt) hnew)
    · exact (hlayout i hge hi).1
  · intro line hline
    rw [List.getLast?_concat] at hline
    cases hline
    exact hwidth.trans hhead.symm
  · intro id interval hid
    obtain ⟨old, hold, hstart, hcovers, hended⟩ := hshuts.interval hid
    obtain ⟨line, hfits⟩ := h.fits hold
    have hhome : lineAt tokens old.1 < new.number :=
      Nat.lt_of_le_of_lt (h.lineAt_le _ (hordered.start_lt hold)) hnew
    refine ⟨line, ?_, ?_, ?_, ?_, hended hfits.ended⟩
    · rw [hstart, isLastUpTo_concat hhome]
      exact hfits.home
    · -- Those open elements are left whose lines are narrower.
      rw [hopen, staysDeeper_concat h.le (h.le line hfits.home.mem) hnew, ← hfits.opened, hwidth]
      constructor
      · rintro ⟨level, hentry, hlt⟩
        refine ⟨List.mem_map_of_mem hentry, ?_⟩
        exact ((hwidths level _ (hfits.level level hentry)).1).1 hlt
      · rintro ⟨hopened, hlt⟩
        obtain ⟨⟨_, level⟩, hentry, rfl⟩ := List.mem_map.1 hopened
        exact ⟨level, hentry, ((hwidths level _ (hfits.level level hentry)).1).2 hlt⟩
    · intro level hentry
      obtain ⟨hentry, hlt⟩ := hmem.1 hentry
      exact (hwidths level _ (hfits.level level hentry)).2 hlt
    · intro i hi hlt hcontent
      rcases Nat.lt_or_ge i b.owners.size with hbefore | hbehind
      · rw [hcovers i hbefore, hfits.covers i (hstart ▸ hi) hbefore hcontent,
          staysDeeper_concat_of_lt (Nat.lt_of_le_of_lt (h.lineAt_le i hbefore) hnew)]
      · exact absurd hcontent (hlayout i hbehind hlt).2

/-- The tokens of a piece stand at a number among all tokens. -/
def StandsAt (tokens : List Token) (count : Nat) (piece : Piece) (place : Position) : Prop :=
  ∀ i token, (piece.tokens place)[i]? = some token → tokens[count + i]? = some token

section Pieces

variable {piece : Piece} {place : Position} {count : Nat}

theorem StandsAt.token {kind : TokenKind} (h : StandsAt tokens count piece place)
    (hkinds : piece.kinds = [kind]) :
    ∃ token, tokens[count]? = some token ∧ token.kind = kind ∧ place.line ≤ lineAt tokens count ∧
      lineAt tokens count ≤ (place.after piece.text).line := by
  obtain ⟨token, hpiece, hkind, hstart, hle, hstop⟩ := piece.exists_token hkinds place
  have hat : tokens[count]? = some token := h 0 token (by rw [hpiece]; rfl)
  have hline : lineAt tokens count = token.span.start.line := by
    rw [lineAt, hat]
    rfl
  refine ⟨token, hat, hkind, ?_, ?_⟩
  · rw [hline, hstart]
    exact line_le_after _ _
  · rw [hline]
    exact Nat.le_trans hle hstop

theorem line_after_next (hwritten : '\n' ∉ piece.written) (hbehind : piece.behind = []) :
    (place.after piece.text).line = (place.after piece.skipped).line := by
  rw [Piece.text, hbehind, List.append_nil, Position.after_append, Position.line_after,
    List.count_eq_zero.2 hwritten, Nat.add_zero]

theorem lt_line_after_next (hlines : '\n' ∈ piece.skipped) :
    place.line < (place.after piece.text).line := by
  rw [Piece.text, Position.after_append]
  refine Nat.lt_of_lt_of_le ?_ (line_le_after _ _)
  rw [Position.line_after]
  exact Nat.lt_add_of_pos_right (List.count_pos_iff.2 hlines)

/-- The tokens for the layout of a line start on it. -/
theorem StandsAt.layout (h : StandsAt tokens count piece place)
    (hlayout : ∀ kind ∈ piece.kinds, kind.isLayout = true) {i : Nat} (hge : count ≤ i)
    (hlt : i < count + piece.kinds.length) :
    ∃ token, tokens[i]? = some token ∧ token.kind.isLayout = true ∧
      lineAt tokens i = (place.after piece.skipped).line := by
  obtain ⟨j, rfl⟩ := Nat.exists_eq_add_of_le hge
  have hj : j < (piece.tokens place).length := by
    rw [Piece.tokens, List.length_map]
    omega
  have hat := h j _ (List.getElem?_eq_getElem hj)
  obtain ⟨kind, hkind, htoken⟩ := List.mem_map.1 (List.getElem_mem hj)
  rw [← htoken] at hat
  refine ⟨_, hat, hlayout kind hkind, ?_⟩
  rw [lineAt, hat]
  rfl

end Pieces

theorem meets_eq_nil {s : Lexer.State} (h : s.stage ≠ .content) (place : Position) :
    s.meets place = [] := if_neg h

/-- A move of the reader. -/
theorem Indented.effect {s t : Lexer.State} {piece : Piece} {place : Position}
    (h : Indented tokens lines b s.levels place.line) (heffect : b.Effect s piece t c)
    (hfollows : b.Follows s) (hordered : b.Ordered)
    (hne : lines ≠ [] ∨ s.stage = .lineEnd false)
    (htokens : StandsAt tokens b.owners.size piece place) :
    Indented tokens (lines ++ t.meets (place.after piece.text)) c t.levels
      (place.after piece.text).line := by
  cases heffect with
  | idle _ hlevels _ ht =>
    rw [meets_eq_nil ht, List.append_nil, hlevels]
    exact h.mono (line_le_after _ _)
  | opens hkinds _ hlevels hs ht name written tagToken =>
    obtain ⟨_, _, _, hle, hle'⟩ := htokens.token hkinds
    have hne : lines ≠ [] := by
      refine hne.resolve_right fun hend => ?_
      rcases hs with hs | hs <;> rw [hs] at hend <;> cases hend
    rw [meets_eq_nil (by rw [ht]; nofun), List.append_nil, hlevels]
    exact ((h.mono hle).openElement hordered hfollows.level hne rfl name written tagToken).mono hle'
  | colon hkinds hlevels _ ht hkeeps =>
    obtain ⟨_, _, _, hle, hle'⟩ := htokens.token hkinds
    rw [meets_eq_nil (by rw [ht]; nofun), List.append_nil, hlevels]
    exact ((h.mono hle).keeps hkeeps rfl).mono hle'
  | keeps hkinds hlevels _ ht _ hkeeps =>
    obtain ⟨_, _, _, hle, hle'⟩ := htokens.token hkinds
    rw [meets_eq_nil ht, List.append_nil, hlevels]
    exact ((h.mono hle).keeps hkeeps rfl).mono hle'
  | next hindents hs ht hlines hwritten hbehind =>
    have hraw : b.inRawText = false := by
      have := hfollows.stage
      rw [hs] at this
      exact this
    rw [State.meets, if_pos ht]
    refine h.next hordered hindents hfollows.level hraw (hindents.widths h.widths).2.1
      (lt_line_after_next hlines) ?_
    intro i hge hi
    rw [(hordered.steps piece.kinds).2] at hi
    obtain ⟨token, hat, hlayout, hline⟩ := htokens.layout hindents.isLayout_eq_true hge hi
    refine ⟨Nat.le_of_eq (hline.trans (line_after_next hwritten hbehind).symm), ?_⟩
    rintro ⟨other, hother, hcontent⟩
    cases hat.symm.trans hother
    rw [hlayout] at hcontent
    cases hcontent

/-- After all tokens, the elements have those tokens up to which the lines are wider than
    their own. -/
def Settled (tokens : List Token) (lines : List ContentLine) (b : Builder) : Prop :=
  ∀ (id : Nat) (interval : Nat × Nat), (intervalsOf b.nodes)[id]? = some interval →
    ∃ line, IsLastUpTo lines (lineAt tokens interval.1) line ∧
      ∀ i, interval.1 ≤ i → IsContentAt tokens i →
        (i < interval.2 ↔ StaysDeeper lines line (lineAt tokens i))

/-- The end of the template. -/
theorem Indented.finish (h : Indented tokens lines b levels number) (hshuts : b.Shuts 0 c)
    (hlayout : ∀ i, b.owners.size ≤ i → ¬IsContentAt tokens i) : Settled tokens lines c := by
  intro id interval hid
  obtain ⟨old, hold, hstart, hcovers, _⟩ := hshuts.interval hid
  obtain ⟨line, hfits⟩ := h.fits hold
  have hnone : id ∉ c.openIds := by
    rw [openIds, hshuts.stack]
    simp
  refine ⟨line, hstart ▸ hfits.home, fun i hi hcontent => ?_⟩
  have hlt : i < b.owners.size := Nat.not_le.1 fun hge => hlayout i hge hcontent
  have hend := hcovers i hlt
  rw [or_iff_right hnone] at hend
  exact hend.trans (hfits.covers i (hstart ▸ hi) hlt hcontent)

end Steps

end ElementTree.Builder

end PugLint
