import Mathlib.Data.Prod.Lex
import PugLint.Proofs.LineIndex
import PugLint.Proofs.Token.Scanner.Bytes

/-!
# Lines and columns of all bytes

A byte may be named by its position or by a line and a column, also where it lies within a
character. Both ways from one name to the other look for the same place: behind the start of a
line, in front of the start of the next one, and not past the end of the text. The starts of the
lines are in order, so a byte stands in one place only.

* `LineIndex.Stands`: a byte stands in a column of a line;
* `LineIndex.Ordered.position_eq_iff`, `LineIndex.Ordered.offset?_eq_some_iff`: both functions
  find that place;
* `LineIndex.Ordered.lt_of_lex`: later places have later bytes;
* `LineIndex.offset?_inverse_position`: the two functions are inverse to each other.
-/

namespace PugLint.LineIndex

open Text

/-- The lines of an index start one behind the other, and none behind the end. -/
structure Ordered (index : LineIndex) : Prop where
  increasing : index.starts.Pairwise (· < ·)
  le_size : ∀ start ∈ index.starts, start ≤ index.size

/-- A byte stands in a column of a line; here both count from zero. -/
structure Stands (index : LineIndex) (line column offset : Nat) : Prop where
  exists_start : ∃ start, index.starts[line]? = some start ∧ offset = start + column
  lt_next : ∀ next, index.starts[line + 1]? = some next → offset < next
  le_size : offset ≤ index.size

/-! ### The starts of lines -/

theorem pairwise_startsFrom (n : Nat) (text : List Char) :
    (startsFrom n text).Pairwise (· < ·) := by
  induction text generalizing n with
  | nil => exact .nil
  | cons c cs ih =>
    rw [startsFrom]
    split
    · exact (ih _).cons fun start hstart => (bounds_of_mem_startsFrom hstart).1
    · exact ih _

theorem ordered_ofText (text : List Char) : (ofText text).Ordered where
  increasing := (pairwise_startsFrom 0 text).cons fun _ h => (bounds_of_mem_startsFrom h).1
  le_size := by
    intro start hstart
    rcases List.mem_cons.1 hstart with rfl | hstart
    · exact Nat.zero_le _
    · exact (bounds_of_mem_startsFrom hstart).2.trans_eq (Nat.zero_add _)

/-- Of starts in a row, the last one up to a byte stands behind those in front of it. -/
theorem exists_getElem?_takeWhile {offset first : Nat} (later : List Nat)
    (hfirst : first ≤ offset) :
    ∃ start ≤ offset, (later.takeWhile (· ≤ offset)).getLast?.getD first = start ∧
      (first :: later)[(later.takeWhile (· ≤ offset)).length]? = some start := by
  induction later generalizing first with
  | nil => exact ⟨first, hfirst, rfl, rfl⟩
  | cons second later ih =>
    rw [List.takeWhile_cons]
    split
    · rename_i hsecond
      obtain ⟨start, hle, hlast, hget⟩ := ih (of_decide_eq_true hsecond)
      exact ⟨start, hle, by rwa [List.getLast?_cons], hget⟩
    · exact ⟨first, hfirst, rfl, rfl⟩

/-- The first start that is not taken any more lies behind the byte. -/
theorem lt_of_getElem?_takeWhile {offset next : Nat} {later : List Nat}
    (h : later[(later.takeWhile (· ≤ offset)).length]? = some next) : offset < next := by
  induction later with
  | nil => cases h
  | cons second later ih =>
    rw [List.takeWhile_cons] at h
    split at h
    · exact ih h
    · rename_i hsecond
      cases h
      exact Nat.lt_of_not_le fun hle => hsecond (decide_eq_true hle)

/-! ### Both functions -/

variable {index : LineIndex} {line column offset line' column' offset' : Nat}

/-- Each byte up to the end stands in the place that is given for it. -/
theorem exists_stands_position (h : offset ≤ index.size) :
    ∃ line column, index.position offset = (line + 1, column) ∧
      index.Stands line column offset := by
  obtain ⟨start, hle, hlast, hget⟩ :=
    exists_getElem?_takeWhile index.laterStarts (Nat.zero_le offset)
  refine ⟨_, offset - start, ?_, ⟨start, hget, (Nat.add_sub_cancel' hle).symm⟩,
    fun next => lt_of_getElem?_takeWhile, h⟩
  rw [position, Nat.min_eq_left h, hlast]

/-- Columns count from one. -/
theorem offset?_zero (index : LineIndex) (line : Nat) : index.offset? line 0 = none := by
  unfold offset?
  split
  · contradiction
  · rfl

namespace Ordered

/-- A line starts behind all bytes of the lines in front of it. -/
theorem lt_of_line_lt (hindex : index.Ordered) (h : index.Stands line column offset)
    (h' : index.Stands line' column' offset') (hlt : line < line') : offset < offset' := by
  obtain ⟨start, hstart, rfl⟩ := h'.exists_start
  obtain ⟨hbound, hget⟩ := List.getElem?_eq_some_iff.1 hstart
  have hnext : index.starts[line + 1]? = some index.starts[line + 1] :=
    List.getElem?_eq_getElem (Nat.lt_of_le_of_lt hlt hbound)
  have hle : index.starts[line + 1] ≤ start := by
    rcases Nat.lt_or_eq_of_le (Nat.succ_le_of_lt hlt) with hlt | heq
    · exact hget ▸ Nat.le_of_lt (List.pairwise_iff_getElem.1 hindex.increasing _ _ _ _ hlt)
    · rw [← hget]
      exact Nat.le_of_eq (getElem_congr_idx heq)
  calc offset < index.starts[line + 1] := h.lt_next _ hnext
    _ ≤ start := hle
    _ ≤ start + column' := Nat.le_add_right ..

/-- Later places have later bytes. -/
theorem lt_of_lex (hindex : index.Ordered) (h : index.Stands line column offset)
    (h' : index.Stands line' column' offset')
    (hlt : toLex (line, column) < toLex (line', column')) : offset < offset' := by
  rcases Prod.Lex.toLex_lt_toLex.1 hlt with hline | ⟨rfl, hcolumn⟩
  · exact hindex.lt_of_line_lt h h' hline
  · obtain ⟨start, hstart, rfl⟩ := h.exists_start
    obtain ⟨start', hstart', rfl⟩ := h'.exists_start
    cases hstart.symm.trans hstart'
    exact Nat.add_lt_add_left hcolumn start

/-- A byte stands in one place only. -/
theorem place_unique (hindex : index.Ordered) (h : index.Stands line column offset)
    (h' : index.Stands line' column' offset) : (line, column) = (line', column') := by
  rcases lt_trichotomy (toLex (line, column)) (toLex (line', column')) with hlt | heq | hlt
  · exact absurd (hindex.lt_of_lex h h' hlt) (Nat.lt_irrefl _)
  · exact toLex.injective heq
  · exact absurd (hindex.lt_of_lex h' h hlt) (Nat.lt_irrefl _)

theorem position_eq_iff (hindex : index.Ordered) (hle : offset ≤ index.size) :
    index.position offset = (line + 1, column) ↔ index.Stands line column offset := by
  obtain ⟨line', column', hposition, hstands⟩ := exists_stands_position hle
  rw [hposition]
  constructor
  · rintro ⟨⟩
    exact hstands
  · intro h
    cases hindex.place_unique h hstands
    rfl

/-- A line ends in front of the next one, or with the text. -/
theorem exists_lineEnd? (hindex : index.Ordered) {start : Nat}
    (hstart : index.starts[line]? = some start) :
    ∃ stop, index.lineEnd? (line + 1) = some stop ∧ ∀ offset, offset ≤ stop ↔
      (∀ next, index.starts[line + 1]? = some next → offset < next) ∧ offset ≤ index.size := by
  simp only [lineEnd?, hstart]
  cases hnext : index.starts[line + 1]? with
  | none => exact ⟨index.size, rfl, fun offset =>
      ⟨fun h => ⟨fun next hnone => absurd hnone.symm (Option.some_ne_none next), h⟩, And.right⟩⟩
  | some next =>
    have hpos : start < next := by
      obtain ⟨hbound, rfl⟩ := List.getElem?_eq_some_iff.1 hstart
      obtain ⟨hbound', rfl⟩ := List.getElem?_eq_some_iff.1 hnext
      exact List.pairwise_iff_getElem.1 hindex.increasing _ _ _ _ (Nat.lt_succ_self line)
    have hsize : next ≤ index.size := hindex.le_size next (List.mem_of_getElem? hnext)
    refine ⟨next - 1, rfl, fun offset => ⟨fun h => ⟨?_, by omega⟩, fun h => ?_⟩⟩
    · rintro _ ⟨⟩
      omega
    · have := h.1 next rfl
      omega

theorem offset?_eq_some_iff (hindex : index.Ordered) :
    index.offset? (line + 1) (column + 1) = some offset ↔ index.Stands line column offset := by
  simp only [offset?, lineStart?]
  cases hstart : index.starts[line]? with
  | none =>
    refine iff_of_false (Option.some_ne_none offset).symm fun h => ?_
    obtain ⟨start, hstart', -⟩ := h.exists_start
    cases hstart.symm.trans hstart'
  | some start =>
    obtain ⟨stop, hstop, hle⟩ := hindex.exists_lineEnd? hstart
    rw [hstop]
    dsimp only
    constructor
    · intro h
      split at h
      · rename_i hbefore
        cases h
        obtain ⟨hnext, hsize⟩ := (hle _).1 hbefore
        exact ⟨⟨start, hstart, rfl⟩, hnext, hsize⟩
      · cases h
    · intro h
      obtain ⟨start', hstart', rfl⟩ := h.exists_start
      cases hstart.symm.trans hstart'
      rw [if_pos ((hle _).2 ⟨h.lt_next, h.le_size⟩)]

/-- A byte is found in places that count from one. -/
theorem exists_of_offset? (hindex : index.Ordered) (h : index.offset? line column = some offset) :
    ∃ line' column', line = line' + 1 ∧ column = column' + 1 ∧
      index.Stands line' column' offset := by
  rcases line with _ | line
  · cases h
  · rcases column with _ | column
    · rw [offset?_zero] at h
      cases h
    · exact ⟨line, column, rfl, rfl, hindex.offset?_eq_some_iff.1 h⟩

end Ordered

/-! ### Texts -/

/-- Up to a byte starts one line for each line feed in front of it. -/
theorem length_takeWhile_startsFrom (n offset : Nat) (text : List Char) :
    ((startsFrom n text).takeWhile (· ≤ offset)).length =
      ((Scanner.bytes text).take (offset - n)).count '\n' := by
  induction text generalizing n with
  | nil => simp [startsFrom, Scanner.bytes]
  | cons c cs ih =>
    have hrest : ((startsFrom (n + c.utf8Size) cs).takeWhile (· ≤ offset)).length =
        ((Scanner.bytes cs).take (offset - n - (Scanner.bytesOf c).length)).count '\n' := by
      rw [ih, Scanner.length_bytesOf, Nat.sub_sub]
    rw [startsFrom, Scanner.bytes_cons, List.take_append, List.count_append, ← hrest]
    rcases eq_or_ne c '\n' with rfl | hc
    · rw [if_pos (beq_self_eq_true _), List.takeWhile_cons,
        Scanner.bytesOf_of_lt (by decide)]
      split
      · rename_i hle
        have hpos : 0 < offset - n := Nat.sub_pos_of_lt (of_decide_eq_true hle)
        rw [List.take_of_length_le hpos, List.count_singleton_self, List.length_cons, Nat.add_comm]
      · rename_i hlt
        have hzero : offset - n = 0 := Nat.sub_eq_zero_of_le
          (Nat.le_of_lt_succ (Nat.lt_of_not_le fun hle => hlt (decide_eq_true hle)))
        rw [hrest, hzero, Nat.zero_sub]
        rfl
    · have hbytes : '\n' ∉ Scanner.bytesOf c := fun h =>
        hc (beq_iff_eq.1 ((Scanner.isAscii_beq (d := '\n') (by decide)).mem_bytesOf h).symm)
      have hzero : ((Scanner.bytesOf c).take (offset - n)).count '\n' = 0 :=
        List.count_eq_zero.2 fun h => hbytes (List.mem_of_mem_take h)
      rw [if_neg (by simpa using hc), hzero, Nat.zero_add]

/-- The line of a byte counts the line feeds in front of it. -/
theorem line_position (text : List Char) (offset : Nat) :
    ((ofText text).position offset).1 = 1 + ((Scanner.bytes text).take offset).count '\n' := by
  have htake : (Scanner.bytes text).take (min offset (byteLength text)) =
      (Scanner.bytes text).take offset := by
    rw [← Scanner.length_bytes, ← List.take_eq_take_min]
  rw [position, ← htake, Nat.add_comm 1]
  exact congrArg (· + 1) (length_takeWhile_startsFrom 0 _ text)

/-- The two ways between bytes and places are inverse to each other, for the bytes up to the end of
    the text. The line of a byte counts the line feeds in front of it, bytes past the end are placed
    at the end, and later places have later bytes. -/
theorem offset?_inverse_position (text : List Char) :
    (∀ offset ≤ byteLength text, ∀ line column,
      (ofText text).position offset = (line, column) →
        (ofText text).offset? line (column + 1) = some offset) ∧
    (∀ line column offset, (ofText text).offset? line column = some offset →
      offset ≤ byteLength text ∧ 0 < column ∧
        (ofText text).position offset = (line, column - 1)) ∧
    (∀ offset, ((ofText text).position offset).1 =
      1 + ((Scanner.bytes text).take offset).count '\n') ∧
    (∀ offset, byteLength text ≤ offset →
      (ofText text).position offset = (ofText text).position (byteLength text)) ∧
    ∀ line column offset line' column' offset',
      (ofText text).offset? line column = some offset →
      (ofText text).offset? line' column' = some offset' →
      toLex (line, column) < toLex (line', column') → offset < offset' := by
  have hindex := ordered_ofText text
  refine ⟨fun offset hle line column h => ?_, fun line column offset h => ?_, ?_, ?_, ?_⟩
  · have hsize : offset ≤ (ofText text).size := hle
    obtain ⟨line', column', hposition, hstands⟩ := exists_stands_position hsize
    cases h.symm.trans hposition
    exact hindex.offset?_eq_some_iff.2 hstands
  · obtain ⟨line, column, rfl, rfl, hstands⟩ := hindex.exists_of_offset? h
    exact ⟨hstands.le_size, Nat.succ_pos _, (hindex.position_eq_iff hstands.le_size).2 hstands⟩
  · exact line_position text
  · intro offset hle
    simp only [position, Nat.min_eq_right hle, Nat.min_self, ofText]
  · intro line column offset line' column' offset' h h' hlt
    obtain ⟨line, column, rfl, rfl, hstands⟩ := hindex.exists_of_offset? h
    obtain ⟨line', column', rfl, rfl, hstands'⟩ := hindex.exists_of_offset? h'
    refine hindex.lt_of_lex hstands hstands' ?_
    rw [Prod.Lex.toLex_lt_toLex] at hlt ⊢
    simpa using hlt

/-- The second byte of a letter, on the line behind a line feed. -/
theorem offset?_inverse_position_letter :
    (3 ≤ byteLength ['a', '\n', 'é'] ∧ (ofText ['a', '\n', 'é']).position 3 = (2, 1) ∧
      (ofText ['a', '\n', 'é']).offset? 2 2 = some 3) ∧
    ((ofText ['a', '\n', 'é']).offset? 1 2 = some 1 ∧ toLex (1, 2) < toLex (2, 2) ∧ 1 < 3) := by
  have hlex : toLex (1, 2) < toLex (2, 2) := Prod.Lex.toLex_lt_toLex.2 (.inl (by decide))
  obtain ⟨hoffset, -, -, -, hlt⟩ := offset?_inverse_position ['a', '\n', 'é']
  have hfound := hoffset 3 (by decide) 2 1 (by decide)
  exact ⟨⟨by decide, by decide, hfound⟩, by decide, hlex, hlt 1 2 1 2 2 3 (by decide) hfound hlex⟩

end PugLint.LineIndex
