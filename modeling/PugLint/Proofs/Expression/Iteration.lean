import PugLint.Proofs.Expression.Free
import PugLint.Proofs.Expression.Renaming

/-!
# The two sides of a `v-for`

A `v-for` is cut at the first of its words. This is the word between a left side and a right side,
if no word stands in the left side, not even with the blank behind it. Blanks around a side do not
change its identifiers.

* `Expression.map_name_occurrences_trim`: the identifiers of a text without the blanks around it;
* `Expression.Iteration.parse?_append`: a `v-for` with its two sides given.
-/

namespace PugLint.Expression

open Text

/-! ### Blanks around a text -/

theorem isQuote_of_isBlank {c : Char} (h : isBlank c = true) : isQuote c = false :=
  Bool.eq_false_iff.2 fun hquote => Bool.false_ne_true ((of_isQuote hquote).1.symm.trans h)

theorem occurrencesFrom_cons_of_isBlank {afterDot : Bool} {c : Char} (h : isBlank c = true)
    (cs : List Char) : occurrencesFrom afterDot (c :: cs) = occurrencesFrom afterDot cs := by
  have hstart := not_isIdentifierStart (isIdentifierChar_of_blank (.inl h))
  rw [occurrencesFrom, if_neg (Bool.eq_false_iff.1 (isQuote_of_isBlank h)),
    if_neg (Bool.eq_false_iff.1 hstart), if_pos h]

theorem occurrencesFrom_trimLeft (afterDot : Bool) (text : List Char) :
    occurrencesFrom afterDot (trimLeft text) = occurrencesFrom afterDot text := by
  induction text with
  | nil => rfl
  | cons c cs ih =>
    rw [trimLeft]
    by_cases h : isBlank c = true
    · rw [List.dropWhile_cons_of_pos h, occurrencesFrom_cons_of_isBlank h]
      exact ih
    · rw [List.dropWhile_cons_of_neg h]

/-- A character that is no quote stays behind a string in front of it, unless the string is not
    closed. -/
theorem skipString_concat {quote c : Char} (hquote : quote ≠ '\\') (h : c ≠ quote)
    (cs : List Char) :
    skipString quote (cs ++ [c]) = skipString quote cs ++ [c] ∨
      skipString quote cs = [] ∧ skipString quote (cs ++ [c]) = [] := by
  have hplain {d : Char} (hd : d ≠ '\\') (ds : List Char) : skipString quote (d :: ds) =
      if d == quote then ds else skipString quote ds :=
    skipString.eq_3 _ _ _ fun _ _ heq _ => hd heq
  fun_induction skipString quote cs with
  | case1 =>
    refine .inr ⟨rfl, ?_⟩
    rw [List.nil_append, skipString.eq_3 _ _ _ fun _ _ _ heq => List.cons_ne_nil _ _ heq.symm,
      if_neg (by simpa using h), skipString]
  | case2 d cs ih => simpa [skipString] using ih
  | case3 d cs hescape hclose =>
    refine .inl ?_
    rw [List.cons_append, hplain (beq_iff_eq.1 hclose ▸ hquote), if_pos hclose]
  | case4 d cs hescape hclose ih =>
    by_cases hd : d = '\\'
    · rcases cs with _ | ⟨e, cs⟩
      · exact .inr ⟨rfl, by rw [hd]; rfl⟩
      · exact (hescape e cs hd rfl).elim
    · rw [List.cons_append, hplain hd, if_neg hclose]
      exact ih

theorem takeWhile_concat {p : Char → Bool} {c : Char} (h : p c = false) (cs : List Char) :
    (cs ++ [c]).takeWhile p = cs.takeWhile p ∧
      (cs ++ [c]).dropWhile p = cs.dropWhile p ++ [c] := by
  induction cs with
  | nil => simp [h]
  | cons d cs ih =>
    by_cases hd : p d = true
    · simp [hd, ih.1, ih.2]
    · simp [hd]

/-- A blank behind a text does not change its identifiers. -/
theorem map_name_occurrencesFrom_concat {afterDot : Bool} {c : Char} (h : isBlank c = true)
    (cs : List Char) : (occurrencesFrom afterDot (cs ++ [c])).map Occurrence.name =
      (occurrencesFrom afterDot cs).map Occurrence.name := by
  have hend (afterDot : Bool) : occurrencesFrom afterDot [c] = [] :=
    (occurrencesFrom_cons_of_isBlank h []).trans (occurrencesFrom.eq_1 _)
  have hchar := isIdentifierChar_of_blank (.inl h)
  fun_induction occurrencesFrom afterDot cs with
  | case1 afterDot => rw [List.nil_append, hend]
  | case2 afterDot d cs hquote ih =>
    have hne : c ≠ d := by
      rintro rfl
      exact Bool.false_ne_true ((isQuote_of_isBlank h).symm.trans hquote)
    rw [List.cons_append, occurrencesFrom, if_pos hquote]
    rcases skipString_concat (of_isQuote hquote).2.2.2 hne cs with hskip | ⟨hnil, hskip⟩
    · rw [hskip, ih]
    · rw [hskip, hnil]
  | case3 d cs hquote hstart rest ih =>
    rw [List.cons_append, occurrencesFrom, if_neg hquote, if_pos hstart,
      (takeWhile_concat hchar cs).2]
    exact ih
  | case4 afterDot d cs hquote hstart rest hdot ih =>
    rw [List.cons_append, occurrencesFrom, if_neg hquote, if_pos hstart]
    dsimp only
    rw [if_neg hdot, (takeWhile_concat hchar cs).1, (takeWhile_concat hchar cs).2, List.map_cons,
      ih]
    rfl
  | case5 afterDot d cs hquote hstart hblank ih =>
    rw [List.cons_append, occurrencesFrom, if_neg hquote, if_neg hstart, if_pos hblank, ih]
  | case6 afterDot d cs hquote hstart hblank ih =>
    rw [List.cons_append, occurrencesFrom, if_neg hquote, if_neg hstart, if_neg hblank, ih]

theorem map_name_occurrencesFrom_trimRight (afterDot : Bool) (text : List Char) :
    (occurrencesFrom afterDot (trimRight text)).map Occurrence.name =
      (occurrencesFrom afterDot text).map Occurrence.name := by
  induction text using List.reverseRecOn with
  | nil => rfl
  | append_singleton text c ih =>
    by_cases h : isBlank c = true
    · rw [trimRight_concat_blank h, ih, map_name_occurrencesFrom_concat h]
    · rw [trimRight_concat (Bool.eq_false_iff.2 h)]

/-- Blanks around a text do not change its identifiers. -/
theorem map_name_occurrences_trim (text : List Char) :
    (occurrences (trim text)).map Occurrence.name = (occurrences text).map Occurrence.name := by
  rw [occurrences, trim, map_name_occurrencesFrom_trimRight, occurrencesFrom_trimLeft, occurrences]

theorem identifiers_eq_map (expression : String) : identifiers expression =
    ((occurrences expression.toList).map Occurrence.name).map String.ofList := by
  rw [List.map_map]
  rfl

/-! ### The cut -/

/-- Where a left side has no word, not even with the blank behind it, it is cut off. -/
theorem cutAt_append {left word : List Char} (hword : word ∈ iterationWords)
    (hleft : ∀ word ∈ iterationWords, ¬word <:+: left ++ [' ']) (right : List Char) :
    CutAt (left ++ (word ++ right)) left := by
  have hwords : ∀ word ∈ iterationWords, word.length = 4 ∧ word[0]? = some ' ' ∧
      word[1]? ≠ some ' ' ∧ word[2]? ≠ some ' ' := by
    decide
  refine ⟨⟨word, hword, right, List.append_assoc ..⟩, fun word' hword' front hfront => ?_⟩
  obtain ⟨hlength, hblank, -, -⟩ := hwords word hword
  obtain ⟨hlength', -, hfirst, hsecond⟩ := hwords word' hword'
  by_contra hlt
  by_cases hinside : front.length + 4 ≤ left.length + 1
  · -- The word would stand in the left side, up to the blank behind it.
    have hprefix : left ++ [' '] <+: left ++ (word ++ right) := by
      obtain ⟨c, cs, rfl⟩ := List.exists_cons_of_ne_nil (List.ne_nil_of_length_eq_add_one hlength)
      obtain rfl : c = ' ' := Option.some.inj hblank
      exact ⟨cs ++ right, by simp⟩
    have hwithin : front ++ word' <+: left ++ [' '] :=
      List.prefix_of_prefix_length_le hfront hprefix (by simp [hlength', hinside])
    exact hleft word' hword' ((List.suffix_append front word').isInfix.trans hwithin.isInfix)
  · -- The first blank of the word between the sides would be one of its letters.
    have hat : word'[left.length - front.length]? = some ' ' := by
      obtain ⟨more, heq⟩ := hfront
      have hget : (front ++ word' ++ more)[left.length]? =
          (left ++ (word ++ right))[left.length]? := congrArg (·[left.length]?) heq
      rwa [List.append_assoc, List.getElem?_append_right (by omega),
        List.getElem?_append_left (by omega), List.getElem?_append_right (Nat.le_refl _),
        Nat.sub_self, List.getElem?_append_left (by omega), hblank] at hget
    rcases (by omega : left.length - front.length = 1 ∨ left.length - front.length = 2) with
      hone | htwo
    · exact hfirst (hone ▸ hat)
    · exact hsecond (htwo ▸ hat)

theorem right_of_splitIteration? {expression left right : List Char}
    (h : splitIteration? expression = some (left, right)) :
    right = expression.drop (left.length + 4) := by
  have hcut {word : List Char} {parts : List Char × List Char}
      (h : (splitBefore? word expression).map (fun pair => (pair.1, pair.2.drop 4)) =
        some parts) : parts.2 = expression.drop (parts.1.length + 4) := by
    obtain ⟨⟨before, rest⟩, hsplit, rfl⟩ := Option.map_eq_some_iff.1 h
    rw [← append_of_splitBefore? hsplit]
    simp [List.drop_append]
  simp only [splitIteration?] at h
  split at h
  · rename_i hin hof
    obtain heq := Option.some.inj h
    split at heq
    · rw [heq] at hin
      exact hcut hin
    · rw [heq] at hof
      exact hcut hof
  · rename_i hin _
    rw [h] at hin
    exact hcut hin
  · exact hcut h

/-- A `v-for` is cut into its two sides at the word between them. -/
theorem Iteration.parse?_append {left word : List Char} (hword : word ∈ iterationWords)
    (hleft : ∀ word ∈ iterationWords, ¬word <:+: left ++ [' ']) (right : List Char) :
    Iteration.parse? (String.ofList (left ++ (word ++ right))) =
      some ⟨identifiers (String.ofList left), String.ofList (trim right)⟩ := by
  obtain ⟨behind, hsplit⟩ := (cutAt_append hword hleft right).exists_splitIteration?
  have hlength : word.length = 4 := by
    have hwords : ∀ word ∈ iterationWords, word.length = 4 := by decide
    exact hwords word hword
  obtain rfl : behind = right := by
    rw [right_of_splitIteration? hsplit]
    simp [List.drop_append, hlength]
  have hnames : identifiers (String.ofList (trim left)) = identifiers (String.ofList left) := by
    rw [identifiers_eq_map, identifiers_eq_map, String.toList_ofList, String.toList_ofList,
      map_name_occurrences_trim]
  rw [Iteration.parse?, String.toList_ofList, hsplit, ← hnames]
  rfl

/-- What is read of a `v-for`, with its aliases given by their places. -/
theorem Iteration.parse?_eq_read (expression : String) : Iteration.parse? expression =
    (splitIteration? expression.toList).map fun sides =>
      ⟨(readIdentifiers (trim sides.1)).map String.ofList, String.ofList (trim sides.2)⟩ := by
  rw [Iteration.parse?]
  refine congrArg (Option.map · _) (funext fun sides => ?_)
  have hread := identifiers_eq_read (String.ofList (trim sides.1))
  rw [String.toList_ofList] at hread
  rw [← hread]

end PugLint.Expression
