import PugLint.Proofs.Placement

/-!
# Tokens of any places

Tokens can be placed whatever places they say they have, be they outside of the template, the wrong
way round or in no order. Each of them gets a range in the template, and none starts before the one
in front of it. A token without a range of its own gets an empty one where that one starts. A token
that has one keeps it, unless it would start before that one.

* `Placement.Resolves`: the range of a span in a template;
* `PlacedToken.Within`: a token and the parts of it lie between two bytes;
* `placeTokens_any`: where the tokens of a list are placed.
-/

namespace PugLint

open Text

/-- A position that a line index gives is one of its text. -/
theorem LineIndex.offset?_le_byteLength {text : List Char} {line column offset : Nat}
    (h : (ofText text).offset? line column = some offset) : offset ≤ byteLength text := by
  have hstop {stop : Nat} (h : (ofText text).lineEnd? line = some stop) :
      stop ≤ byteLength text := by
    unfold lineEnd? at h
    split at h
    · cases h
    · split at h
      · cases h
      · split at h
        · -- The next line starts behind this one, and not behind the text.
          rename_i next hnext
          cases h
          rw [starts, List.getElem?_cons_succ] at hnext
          have hbounds := bounds_of_mem_startsFrom (List.mem_of_getElem? hnext)
          omega
        · cases h
          exact Nat.le_refl _
  unfold offset? at h
  split at h
  · split at h
    · rename_i hend hle
      cases h
      exact Nat.le_trans hle (hstop hend)
    · cases h
  · cases h

namespace Placement

/-- A span has a range in a template: both of its ends are places in it, and they are in order. -/
structure Resolves (template : List Char) (span : Span) (first last : Nat) : Prop where
  first_eq : (LineIndex.ofText template).offset? span.start.line span.start.column = some first
  last_eq : (LineIndex.ofText template).offset? span.stop.line span.stop.column = some last
  first_le_last : first ≤ last

theorem resolve?_eq_some_iff {template : List Char} {span : Span} {first last : Nat} :
    resolve? (LineIndex.ofText template) span = some (first, last) ↔
      Resolves template span first last := by
  constructor
  · intro h
    unfold resolve? at h
    split at h
    · rename_i hfirst hlast
      split at h
      · cases h
        exact ⟨hfirst, hlast, ‹_›⟩
      · cases h
    · cases h
  · rintro ⟨hfirst, hlast, hle⟩
    simp only [resolve?, hfirst, hlast]
    rw [if_pos hle]

theorem Resolves.last_le {template : List Char} {span : Span} {first last : Nat}
    (h : Resolves template span first last) : last ≤ byteLength template :=
  LineIndex.offset?_le_byteLength h.last_eq

end Placement

/-- A token lies between two bytes: its range does, its size is that of the range, and the ranges of
    its name and of its value are parts of its own. -/
structure PlacedToken.Within (first last : Nat) (token : PlacedToken) : Prop where
  first_le : first ≤ token.start
  stop_le : token.stop ≤ last
  start_add_size : token.start + token.size = token.stop
  nameRange : ∀ start stop, token.nameRange? = some (start, stop) →
    token.start ≤ start ∧ start ≤ stop ∧ stop ≤ token.stop
  valueRange : ∀ start stop, token.valueRange? = some (start, stop) →
    token.start ≤ start ∧ start ≤ stop ∧ stop ≤ token.stop

/-- The parts of a token lie in its range. -/
theorem PlacedToken.within_of_le {token : PlacedToken} {first last : Nat}
    (hfirst : first ≤ token.start) (hle : token.start ≤ token.stop) (hlast : token.stop ≤ last) :
    token.Within first last where
  first_le := hfirst
  stop_le := hlast
  start_add_size := Nat.add_sub_cancel' hle
  nameRange start stop h := by
    obtain ⟨⟨name, value⟩, -, hrange⟩ := Option.map_eq_some_iff.1 h
    cases hrange
    omega
  valueRange start stop h := by
    unfold valueRange? at h
    split at h
    · cases h
      omega
    · cases h

namespace Placement

/-! ### One token -/

/-- Where a token is placed behind one that starts at `cursor`. -/
structure PlacedBehind (template : List Char) (offset cursor : Nat) (token : Token)
    (placed : PlacedToken) : Prop where
  /-- The token stays what it is. -/
  kind_eq : placed.kind = token.kind
  /-- A range that starts behind the cursor is kept. -/
  kept : ∀ first last, Resolves template token.span first last → cursor ≤ offset + first →
    placed.start = offset + first ∧ placed.stop = offset + last
  /-- A range that starts in front of the cursor is cut there. -/
  cut : ∀ first last, Resolves template token.span first last → offset + first < cursor →
    placed.start = cursor ∧ placed.stop = max (offset + last) cursor
  /-- Without a range, the token is empty. -/
  empty : (∀ first last, ¬Resolves template token.span first last) →
    placed.start = cursor ∧ placed.stop = cursor

variable (template : List Char) (offset line cursor : Nat)

theorem placedBehind_placeAfter (token : Token) :
    PlacedBehind template offset cursor token
      (placeAfter (LineIndex.ofText template) offset line cursor token) where
  kind_eq := rfl
  kept first last h hle := by
    simp only [placeAfter, resolve?_eq_some_iff.2 h]
    exact ⟨Nat.max_eq_left hle, if_neg (Nat.not_lt.2 hle)⟩
  cut first last h hlt := by
    simp only [placeAfter, resolve?_eq_some_iff.2 h]
    exact ⟨Nat.max_eq_right (Nat.le_of_lt hlt), if_pos hlt⟩
  empty h := by
    have hnone : resolve? (LineIndex.ofText template) token.span = none :=
      Option.eq_none_iff_forall_ne_some.2 fun range heq =>
        h range.1 range.2 (resolve?_eq_some_iff.1 heq)
    simp only [placeAfter, hnone]
    exact ⟨Nat.max_self _, if_neg (Nat.lt_irrefl _)⟩

variable {template offset cursor}

/-- A token is placed in the template, behind the cursor. -/
theorem PlacedBehind.bounds {token : Token} {placed : PlacedToken}
    (h : PlacedBehind template offset cursor token placed) (hcursor : offset ≤ cursor)
    (hend : cursor ≤ offset + byteLength template) :
    cursor ≤ placed.start ∧ placed.Within offset (offset + byteLength template) := by
  by_cases hrange : ∃ first last, Resolves template token.span first last
  · obtain ⟨first, last, hrange⟩ := hrange
    have hordered := hrange.first_le_last
    have hlast := hrange.last_le
    rcases Nat.lt_or_ge (offset + first) cursor with hlt | hle
    · obtain ⟨hstart, hstop⟩ := h.cut first last hrange hlt
      exact ⟨by omega, PlacedToken.within_of_le (by omega) (by omega) (by omega)⟩
    · obtain ⟨hstart, hstop⟩ := h.kept first last hrange hle
      exact ⟨by omega, PlacedToken.within_of_le (by omega) (by omega) (by omega)⟩
  · push Not at hrange
    obtain ⟨hstart, hstop⟩ := h.empty hrange
    exact ⟨by omega, PlacedToken.within_of_le (by omega) (by omega) (by omega)⟩

/-! ### All tokens -/

/-- The byte where the last of some tokens starts, or `cursor` if there are none. -/
def cursorBehind (cursor : Nat) (placed : List PlacedToken) : Nat :=
  (placed.getLast?.map PlacedToken.start).getD cursor

theorem cursorBehind_cons (cursor : Nat) (token : PlacedToken) (placed : List PlacedToken) :
    cursorBehind cursor (token :: placed) = cursorBehind token.start placed := by
  rw [cursorBehind, cursorBehind, List.getLast?_cons]
  cases placed.getLast? <;> rfl

variable (template offset cursor)

/-- Every token is placed behind the one in front of it. -/
theorem getElem?_placeFrom {tokens : List Token} {i : Nat} {token : Token}
    (h : tokens[i]? = some token) :
    ∃ placed, (placeFrom (LineIndex.ofText template) offset line cursor tokens)[i]? = some placed ∧
      PlacedBehind template offset
        (cursorBehind cursor
          ((placeFrom (LineIndex.ofText template) offset line cursor tokens).take i))
        token placed := by
  induction tokens generalizing i cursor with
  | nil => cases h
  | cons first tokens ih =>
    cases i with
    | zero =>
      cases h
      exact ⟨_, rfl, placedBehind_placeAfter template offset line cursor token⟩
    | succ i =>
      simp only [placeFrom, List.getElem?_cons_succ, List.take_succ_cons, cursorBehind_cons]
      exact ih _ h

variable {template offset cursor}

/-- Tokens are placed in the template and in order, behind the cursor. -/
theorem placeFrom_bounds (hcursor : offset ≤ cursor) (hend : cursor ≤ offset + byteLength template)
    (tokens : List Token) :
    let all := placeFrom (LineIndex.ofText template) offset line cursor tokens
    (∀ token ∈ all, cursor ≤ token.start ∧ token.Within offset (offset + byteLength template)) ∧
      all.Pairwise fun first second => first.start ≤ second.start := by
  induction tokens generalizing cursor with
  | nil => exact ⟨nofun, .nil⟩
  | cons token tokens ih =>
    obtain ⟨hstart, hwithin⟩ :=
      (placedBehind_placeAfter template offset line cursor token).bounds hcursor hend
    have hroom := hwithin.start_add_size
    have hstop := hwithin.stop_le
    obtain ⟨hothers, hpairwise⟩ := ih (Nat.le_trans hcursor hstart) (by omega)
    refine ⟨List.forall_mem_cons.2 ⟨⟨hstart, hwithin⟩, fun other hother => ?_⟩,
      List.pairwise_cons.2 ⟨fun other hother => (hothers other hother).1, hpairwise⟩⟩
    exact ⟨Nat.le_trans hstart (hothers other hother).1, (hothers other hother).2⟩

end Placement

/-- Tokens of any places are placed in the template and in order, one for each. Each is placed
    behind the one in front of it, the first one behind the start of the template. -/
theorem placeTokens_any (tokens : List Token) (template : List Char) (offset line : Nat) :
    let placed := placeTokens tokens template offset line
    placed.length = tokens.length ∧
      (∀ token ∈ placed, token.Within offset (offset + byteLength template)) ∧
      (placed.Pairwise fun first second => first.start ≤ second.start) ∧
      ∀ i token, tokens[i]? = some token → ∃ token', placed[i]? = some token' ∧
        Placement.PlacedBehind template offset (Placement.cursorBehind offset (placed.take i))
          token token' := by
  intro placed
  obtain ⟨hwithin, hpairwise⟩ :=
    Placement.placeFrom_bounds line (Nat.le_refl offset) (Nat.le_add_right _ _) tokens
  refine ⟨?_, fun token htoken => (hwithin token htoken).2, hpairwise, fun i token h => ?_⟩
  · rw [← List.length_map PlacedToken.kind, map_kind_placeTokens, List.length_map]
  · exact Placement.getElem?_placeFrom template offset line offset h

/-- Tokens of which the first one has a range, the second one starts in front of it, and the third
    one has its ends the wrong way round on a line that there is not. -/
def strayTokens : List Token :=
  [⟨.attribute "é" (some "d") true, ⟨2, 1⟩, ⟨2, 3⟩⟩, ⟨.tag "a", ⟨1, 2⟩, ⟨2, 2⟩⟩,
    ⟨.eos, ⟨3, 7⟩, ⟨0, 0⟩⟩]

/-- The second one is cut at the first one, and the third one is empty there. -/
theorem placeTokens_any_stray :
    let placed := placeTokens strayTokens "ab\ncd".toList 10 4
    placed = [⟨.attribute "é" (some "d") true, 13, 15, 5, 5⟩, ⟨.tag "a", 13, 14, 4, 5⟩,
      ⟨.eos, 13, 13, 6, 4⟩] ∧
      placed.length = strayTokens.length ∧
      (∀ token ∈ placed, token.Within 10 (10 + byteLength "ab\ncd".toList)) ∧
      placed.Pairwise fun first second => first.start ≤ second.start := by
  intro placed
  obtain ⟨hlength, hwithin, hpairwise, -⟩ := placeTokens_any strayTokens "ab\ncd".toList 10 4
  exact ⟨by decide +kernel, hlength, hwithin, hpairwise⟩

end PugLint
