import Mathlib.Data.List.Basic
import PugLint.Expression

/-!
# Where expressions stand

The bytes of a text and of its parts: the text inside the quotes of a value, and
the identifiers of an expression.

* `Text.utf8ByteSize_eq`: a string has as many bytes as its characters;
* `unquotedOffset_add_le`: the text inside the quotes lies within the value;
* `exists_append_of_mem_occurrences`: an identifier stands in its expression.
-/

namespace PugLint

/-- A string has as many bytes as its characters. -/
theorem Text.utf8ByteSize_eq (s : String) : s.utf8ByteSize = byteLength s.toList := by
  suffices h : ∀ cs : List Char, (String.ofList cs).utf8ByteSize = byteLength cs by
    rw [← h, String.ofList_toList]
  intro cs
  induction cs with
  | nil => rfl
  | cons c cs ih =>
    have hcons : String.ofList (c :: cs) = String.singleton c ++ String.ofList cs := by
      rw [← List.singleton_append, String.ofList_append]
      rfl
    rw [hcons, String.utf8ByteSize_append, String.utf8ByteSize_singleton, ih, byteLength_cons]

namespace Expression

open Text

/-- A quoted text has its quotes around it. -/
theorem exists_of_quoted? {value inner : List Char} (h : quoted? value = some inner) :
    ∃ quote, isQuote quote = true ∧ value = quote :: (inner ++ [quote]) := by
  cases value with
  | nil => cases h
  | cons c cs =>
    rw [quoted?] at h
    split at h
    · rename_i hquoted
      obtain ⟨hc, hlast⟩ := Bool.and_eq_true_iff.1 hquoted
      cases h
      refine ⟨c, hc, ?_⟩
      rw [List.dropLast_append_getLast? _ (LawfulBEq.eq_of_beq hlast)]
    · cases h

/-- The text inside the quotes stands behind the first of them. -/
theorem exists_append_unquoteChars (value : String) :
    ∃ before behind, value.toList = before ++ (unquoteChars value.toList ++ behind) ∧
      unquotedOffset value = byteLength before := by
  rw [unquotedOffset, unquoteChars]
  cases h : quoted? value.toList with
  | none => exact ⟨[], [], by simp, rfl⟩
  | some inner =>
    obtain ⟨quote, hquote, hvalue⟩ := exists_of_quoted? h
    refine ⟨[quote], [quote], hvalue, ?_⟩
    simp only [isQuote, Bool.or_eq_true, beq_iff_eq] at hquote
    rcases hquote with (rfl | rfl) | rfl <;> rfl

/-- The text inside the quotes lies within the value. -/
theorem unquotedOffset_add_le (value : String) :
    unquotedOffset value + byteLength (unquoteChars value.toList) ≤ value.utf8ByteSize := by
  obtain ⟨before, behind, hvalue, hoffset⟩ := exists_append_unquoteChars value
  have hbytes := congrArg byteLength hvalue
  rw [byteLength_append, byteLength_append] at hbytes
  rw [utf8ByteSize_eq]
  omega

/-! ### Identifiers -/

theorem skipString_suffix (quote : Char) (cs : List Char) : skipString quote cs <:+ cs := by
  fun_induction skipString quote cs with
  | case1 => exact List.suffix_refl _
  | case2 c cs ih => exact ih.trans ((List.suffix_cons c cs).trans (List.suffix_cons _ _))
  | case3 c cs _ h => exact List.suffix_cons c cs
  | case4 c cs _ h ih => exact ih.trans (List.suffix_cons c cs)

theorem exists_append_of_mem_occurrencesFrom {afterDot : Bool} {cs : List Char}
    {occurrence : Occurrence} (h : occurrence ∈ occurrencesFrom afterDot cs) :
    ∃ before, cs = before ++ (occurrence.name ++ occurrence.rest) := by
  -- What is still to be read is a suffix of what there was.
  have hsuffix {cs ds : List Char} (hs : ds <:+ cs)
      (h : ∃ before, ds = before ++ (occurrence.name ++ occurrence.rest)) :
      ∃ before, cs = before ++ (occurrence.name ++ occurrence.rest) := by
    obtain ⟨front, rfl⟩ := hs
    obtain ⟨before, rfl⟩ := h
    exact ⟨front ++ before, (List.append_assoc _ _ _).symm⟩
  fun_induction occurrencesFrom afterDot cs with
  | case1 => exact absurd h List.not_mem_nil
  | case2 _ c cs _ ih =>
    exact hsuffix ((skipString_suffix c cs).trans (List.suffix_cons c cs)) (ih h)
  | case3 c cs _ _ rest ih =>
    exact hsuffix ((List.dropWhile_suffix _).trans (List.suffix_cons c cs)) (ih h)
  | case4 _ c cs _ _ rest _ ih =>
    rcases List.mem_cons.1 h with rfl | h
    · refine ⟨[], ?_⟩
      rw [List.nil_append, List.cons_append, List.takeWhile_append_dropWhile]
    · exact hsuffix ((List.dropWhile_suffix _).trans (List.suffix_cons c cs)) (ih h)
  | case5 _ c cs _ _ _ ih => exact hsuffix (List.suffix_cons c cs) (ih h)
  | case6 _ c cs _ _ _ ih => exact hsuffix (List.suffix_cons c cs) (ih h)

/-- An identifier stands in its expression, at its offset. -/
theorem exists_append_of_mem_occurrences {expression : List Char} {occurrence : Occurrence}
    (h : occurrence ∈ occurrences expression) :
    ∃ before, expression = before ++ (occurrence.name ++ occurrence.rest) ∧
      occurrence.offset expression = byteLength before := by
  obtain ⟨before, hexpression⟩ := exists_append_of_mem_occurrencesFrom h
  refine ⟨before, hexpression, ?_⟩
  rw [Occurrence.offset, hexpression, byteLength_append, byteLength_append]
  omega

end Expression

end PugLint
