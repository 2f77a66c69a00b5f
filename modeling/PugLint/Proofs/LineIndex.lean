import Mathlib.Data.List.Induction
import PugLint.LineIndex
import PugLint.Proofs.Text.Bytes
import PugLint.Token

/-!
# Places, lines and bytes

Three ways to name a place in a text: by the text in front of it, by the line
and column where a token starts there, and by its byte. The text in front is
what the other two are computed from, so a place is the end of a prefix `p` of
the text here, and the statements say that the other two agree.

* `LineIndex.offset?_after`: the line and column behind `p` are found at the
  byte `Text.byteLength p`;
* `LineIndex.position_append`: that byte is on the line, and in the column, of
  the place behind `p`.
-/

namespace PugLint

namespace Position

/-- A text moves a place down by its line feeds. -/
theorem line_after (p : Position) (text : List Char) :
    (p.after text).line = p.line + text.count '\n' := by
  induction text generalizing p with
  | nil => simp
  | cons c cs ih =>
    rw [after_cons, ih, List.count_cons]
    by_cases hc : c = '\n'
    · simp [next, hc, Nat.add_assoc, Nat.add_comm 1]
    · simp [next, hc]

theorem after_concat (p : Position) (text : List Char) (c : Char) :
    p.after (text ++ [c]) = (p.after text).next c := by
  rw [after_append, after_cons, after_nil]

end Position

namespace LineIndex

open Text

theorem startsFrom_append (n : Nat) (a b : List Char) :
    startsFrom n (a ++ b) = startsFrom n a ++ startsFrom (n + byteLength a) b := by
  induction a generalizing n with
  | nil => simp [startsFrom]
  | cons c cs ih =>
    simp only [List.cons_append, startsFrom, byteLength_cons, ih, Nat.add_assoc]
    split <;> rfl

theorem length_startsFrom (n : Nat) (a : List Char) :
    (startsFrom n a).length = a.count '\n' := by
  induction a generalizing n with
  | nil => rfl
  | cons c cs ih =>
    rw [startsFrom, List.count_cons]
    split <;> simp_all

/-- Lines start behind the place where the text starts, up to its end. -/
theorem bounds_of_mem_startsFrom {n s : Nat} {a : List Char} (h : s ∈ startsFrom n a) :
    n < s ∧ s ≤ n + byteLength a := by
  induction a generalizing n with
  | nil => simp [startsFrom] at h
  | cons c cs ih =>
    have hc : 0 < c.utf8Size := c.utf8Size_pos
    have hs : s = n + c.utf8Size ∨ s ∈ startsFrom (n + c.utf8Size) cs := by
      rw [startsFrom] at h
      split at h
      · exact List.mem_cons.1 h
      · exact .inr h
    rw [byteLength_cons]
    rcases hs with rfl | hs
    · omega
    · have := ih hs
      omega

/-- The byte where the last line of a text starts. -/
def lastStart (text : List Char) : Nat :=
  (startsFrom 0 text).getLast?.getD 0

theorem lastStart_concat (p : List Char) (c : Char) :
    lastStart (p ++ [c]) = if c = '\n' then byteLength p + c.utf8Size else lastStart p := by
  by_cases hc : c = '\n' <;> simp [lastStart, startsFrom_append, startsFrom, hc]

/-- The column behind a text counts the bytes of its last line. -/
theorem lastStart_add_column (p : List Char) :
    lastStart p + (Position.first.after p).column = byteLength p + 1 := by
  -- Induction from the back: the last character either starts a line or widens it.
  induction p using List.reverseRecOn with
  | nil => rfl
  | append_singleton p c ih =>
    rw [lastStart_concat, Position.after_concat, byteLength_append, byteLength_cons,
      byteLength_nil, Position.next]
    by_cases hc : c = '\n'
    · simp [hc]
    · simp only [hc, if_false, beq_iff_eq]
      omega

theorem line_first_after (p : List Char) :
    (Position.first.after p).line = 1 + (startsFrom 0 p).length := by
  rw [Position.line_after, length_startsFrom]
  rfl

/-- The byte behind a prefix of a text is on the line, and in the column, of the
    place behind it; here columns count from zero. -/
theorem position_append (p q : List Char) :
    (ofText (p ++ q)).position (byteLength p) =
      ((Position.first.after p).line, (Position.first.after p).column - 1) := by
  have hsize : min (byteLength p) (ofText (p ++ q)).size = byteLength p := by
    simp [ofText, byteLength_append]
  have hup : (ofText (p ++ q)).laterStarts.takeWhile (· ≤ byteLength p) = startsFrom 0 p := by
    have hp : ∀ s ∈ startsFrom 0 p, decide (s ≤ byteLength p) = true := fun s hs => by
      have := bounds_of_mem_startsFrom hs
      simp only [decide_eq_true_eq]
      omega
    have hq : (startsFrom (0 + byteLength p) q).takeWhile (· ≤ byteLength p) = [] := by
      cases h : startsFrom (0 + byteLength p) q with
      | nil => rfl
      | cons s ss =>
        have := bounds_of_mem_startsFrom (h ▸ List.mem_cons_self : s ∈ startsFrom _ q)
        rw [List.takeWhile_cons_of_neg]
        simp only [decide_eq_true_eq]
        omega
    rw [ofText, startsFrom_append, List.takeWhile_append_of_pos hp, hq, List.append_nil]
  have hcolumn := lastStart_add_column p
  rw [lastStart] at hcolumn
  rw [position, hsize, hup, line_first_after, Nat.add_comm 1]
  refine Prod.ext rfl ?_
  simp only
  omega

/-- The line and column behind a prefix of a text are found at the byte behind
    it. -/
theorem offset?_after (p q : List Char) :
    (ofText (p ++ q)).offset? (Position.first.after p).line (Position.first.after p).column =
      some (byteLength p) := by
  have hstart :
      (0 :: (startsFrom 0 p ++ startsFrom (0 + byteLength p) q))[(startsFrom 0 p).length]? =
        some (lastStart p) := by
    rw [← List.cons_append, List.getElem?_append_left (by simp)]
    rw [lastStart]
    cases h : startsFrom 0 p with
    | nil => rfl
    | cons s ss => simp [List.getLast?_eq_getElem?]
  have hnext :
      (0 :: (startsFrom 0 p ++ startsFrom (0 + byteLength p) q))[(startsFrom 0 p).length + 1]? =
        (startsFrom (0 + byteLength p) q).head? := by
    rw [List.getElem?_cons_succ, List.getElem?_append_right (Nat.le_refl _), Nat.sub_self,
      List.head?_eq_getElem?]
  have hcolumn := lastStart_add_column p
  have hle : lastStart p ≤ byteLength p := by
    rw [lastStart]
    cases h : (startsFrom 0 p).getLast? with
    | none => simp
    | some s => simpa using (bounds_of_mem_startsFrom (List.mem_of_getLast? h)).2
  obtain ⟨column, hc⟩ : ∃ column, (Position.first.after p).column = column + 1 :=
    ⟨(Position.first.after p).column - 1, by omega⟩
  rw [hc] at hcolumn ⊢
  rw [line_first_after, Nat.add_comm 1]
  simp only [offset?, lineStart?, lineEnd?, starts, ofText, startsFrom_append, hstart, hnext]
  cases h : startsFrom (0 + byteLength p) q with
  | nil =>
    simp only [List.head?_nil, byteLength_append]
    rw [if_pos (by omega)]
    congr 1
    omega
  | cons s ss =>
    have := bounds_of_mem_startsFrom (h ▸ List.mem_cons_self : s ∈ startsFrom _ q)
    simp only [List.head?_cons]
    rw [if_pos (by omega)]
    congr 1
    omega

end LineIndex

end PugLint
