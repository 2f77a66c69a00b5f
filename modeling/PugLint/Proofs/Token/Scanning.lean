import Mathlib.Data.List.TakeWhile
import PugLint.Token.Lexer

/-!
# What scanners take

Every scanner splits the text in front of it: what it takes and what it leaves
are the text again. Beyond that, some of them say how what they take ends.

* `splitLine_append`, `isLineEnd_splitLine`: a line is taken up to its end;
* `eq_append_of_scanString`, `eq_append_of_scanGroup`: strings end with their
  quote and groups with a parenthesis;
* `eq_append_of_scanValue`: the value of an attribute;
* `scanName_append`, `scanAssignment_eq`: a plain name, and the sign behind it;
* `closeLevels_append`, `closeLevels_eq`: the levels that a line closes.
-/

namespace PugLint

/-- A computation that gives a value has given one at its first step. -/
theorem bind_eq_ok {ε α β : Type} {x : Except ε α} {f : α → Except ε β} {b : β} :
    x >>= f = .ok b ↔ ∃ a, x = .ok a ∧ f a = .ok b := by
  cases x with
  | error e => exact ⟨fun h => (nomatch h), fun ⟨_, h, _⟩ => (nomatch h)⟩
  | ok a => exact ⟨fun h => ⟨a, rfl, h⟩, fun ⟨_, h, hf⟩ => by cases h; exact hf⟩

theorem map_eq_ok {ε α β : Type} {x : Except ε α} {f : α → β} {b : β} :
    x.map f = .ok b ↔ ∃ a, x = .ok a ∧ f a = b := by
  cases x <;> simp [Except.map]

namespace Lexer

/-- Characters of a class are taken up to the first one that is not of the class. -/
theorem takeWhile_append_stop {p : Char → Bool} {text rest : List Char}
    (htext : ∀ c ∈ text, p c = true) (hrest : ∀ c ∈ rest.head?, p c = false) :
    (text ++ rest).takeWhile p = text ∧ (text ++ rest).dropWhile p = rest := by
  rw [List.takeWhile_append_of_pos htext, List.dropWhile_append_of_pos htext]
  cases rest with
  | nil => simp
  | cons c rest =>
    have hc : ¬p c = true := by simp [hrest c rfl]
    rw [List.takeWhile_cons_of_neg hc, List.dropWhile_cons_of_neg hc, List.append_nil]
    exact ⟨rfl, rfl⟩

theorem isAlpha_of_isLower {c : Char} (h : c.isLower = true) : c.isAlpha = true :=
  Bool.or_eq_true_iff.2 (.inr h)

theorem isAlphanum_of_isLower {c : Char} (h : c.isLower = true) : c.isAlphanum = true :=
  Bool.or_eq_true_iff.2 (.inl (isAlpha_of_isLower h))

/-- Letters and digits are characters of ASCII. -/
theorem lt_of_isAlphanum {c : Char} (h : c.isAlphanum = true) : c.toNat < 128 := by
  have hrange {last : Char} (hlast : last.toNat < 128) (h : c.val ≤ last.val) : c.toNat < 128 :=
    Nat.lt_of_le_of_lt (UInt32.le_iff_toNat_le.1 h) hlast
  rcases Bool.or_eq_true_iff.1 h with h | h
  · rcases Bool.or_eq_true_iff.1 h with h | h
    · exact hrange (by decide) (of_decide_eq_true h).2
    · exact hrange (by decide) (of_decide_eq_true (Bool.and_eq_true_iff.1 h).2)
  · exact hrange (by decide) (of_decide_eq_true (Bool.and_eq_true_iff.1 h).2)

/-! ### Lines -/

theorem splitLine_append (cs : List Char) : (splitLine cs).1 ++ (splitLine cs).2 = cs := by
  induction cs with
  | nil => rfl
  | cons c cs ih =>
    rw [splitLine]
    split
    · rfl
    · simp only [List.cons_append, ih]

/-- What is left behind a line is its end. -/
theorem isLineEnd_splitLine (cs : List Char) : isLineEnd (splitLine cs).2 = true := by
  induction cs with
  | nil => rfl
  | cons c cs ih =>
    rw [splitLine]
    split
    · assumption
    · exact ih

theorem newline_not_mem_splitLine (cs : List Char) : '\n' ∉ (splitLine cs).1 := by
  induction cs with
  | nil => exact List.not_mem_nil
  | cons c cs ih =>
    rw [splitLine]
    split
    · exact List.not_mem_nil
    · rename_i hend
      refine List.not_mem_cons_of_ne_of_not_mem ?_ ih
      rintro rfl
      exact hend rfl

/-- Of a text that is not at the end of a line, the first character is on it. -/
theorem splitLine_cons {c : Char} {cs : List Char} (h : isLineEnd (c :: cs) = false) :
    splitLine (c :: cs) = (c :: (splitLine cs).1, (splitLine cs).2) := by
  simp [splitLine, h]

theorem isLineEnd_cons_of_ne {c : Char} (hn : c ≠ '\n') (hr : c ≠ '\r') (cs : List Char) :
    isLineEnd (c :: cs) = false := by
  rw [isLineEnd]
  · exact List.cons_ne_nil _ _
  · rintro ds ⟨⟩
    exact hn rfl
  · rintro ds ⟨⟩
    exact hr rfl

theorem isLineEnd_cons_of_isAlphanum {c : Char} (hc : (c.isAlphanum || c == '_') = true)
    (cs : List Char) : isLineEnd (c :: cs) = false := by
  refine isLineEnd_cons_of_ne ?_ ?_ cs <;> rintro rfl <;> exact absurd hc (by decide)

theorem isLineEnd_cons_of_isInlineBlank {c : Char} (hc : isInlineBlank c = true)
    (cs : List Char) : isLineEnd (c :: cs) = false := by
  refine isLineEnd_cons_of_ne ?_ ?_ cs <;> rintro rfl <;> exact absurd hc (by decide)

/-- What is no line break is on the line of what follows it. -/
theorem splitLine_append_of_ne {marker : List Char} (h : ∀ c ∈ marker, c ≠ '\n' ∧ c ≠ '\r')
    (cs : List Char) :
    splitLine (marker ++ cs) = (marker ++ (splitLine cs).1, (splitLine cs).2) := by
  induction marker with
  | nil => rfl
  | cons c marker ih =>
    obtain ⟨⟨hn, hr⟩, hmarker⟩ := List.forall_mem_cons.1 h
    rw [List.cons_append, splitLine_cons (isLineEnd_cons_of_ne hn hr _), ih hmarker]
    rfl

/-- A marker without line breaks is on the line that it starts. -/
theorem exists_line_eq_append {cursor : Cursor} {marker cs : List Char}
    (h : cursor.rest = marker ++ cs) (hm : ∀ c ∈ marker, c ≠ '\n' ∧ c ≠ '\r') :
    ∃ more, (splitLine cursor.rest).1 = marker ++ more := by
  rw [h, splitLine_append_of_ne hm]
  exact ⟨_, rfl⟩

/-- A line starts as the text does, unless that is at the end of the line. -/
theorem head?_splitLine (cs : List Char) :
    (splitLine cs).1.head? = if isLineEnd cs then none else cs.head? := by
  rcases cs with _ | ⟨c, cs⟩
  · rfl
  · rw [splitLine]
    split <;> rfl

theorem ne_break_of_isLower {c : Char} (h : c.isLower = true) : c ≠ '\n' ∧ c ≠ '\r' := by
  constructor <;> (rintro rfl; exact absurd h (by decide))

/-- A text at the end of a line is empty or starts with a line break. -/
theorem eq_of_isLineEnd {cs : List Char} (h : isLineEnd cs = true) :
    cs = [] ∨ (∃ ds, cs = '\n' :: ds) ∨ ∃ ds, cs = '\r' :: '\n' :: ds := by
  fun_cases isLineEnd cs with
  | case1 => exact .inl rfl
  | case2 ds => exact .inr (.inl ⟨ds, rfl⟩)
  | case3 ds => exact .inr (.inr ⟨ds, rfl⟩)
  | case4 => simp_all [isLineEnd]

/-! ### Strings, values and groups -/

theorem taking_eq_ok {cs taken rest : List Char} {x : Except LexError (List Char × List Char)}
    (h : taking cs x = .ok (taken, rest)) : ∃ more, x = .ok (more, rest) ∧ taken = cs ++ more := by
  obtain ⟨⟨more, rest'⟩, hx, heq⟩ := map_eq_ok.1 h
  obtain ⟨rfl, rfl⟩ := Prod.mk.inj heq
  exact ⟨more, hx, rfl⟩

/-- A string is taken with its closing quote. -/
theorem eq_append_of_scanString {quote : Char} {cs taken rest : List Char}
    (h : scanString quote cs = some (taken, rest)) :
    cs = taken ++ rest ∧ ∃ body, taken = body ++ [quote] := by
  fun_induction scanString quote cs generalizing taken rest with
  | case1 => simp at h
  | case2 c cs ih =>
    obtain ⟨⟨more, rest'⟩, hs, heq⟩ := Option.map_eq_some_iff.1 h
    obtain ⟨rfl, rfl⟩ := Prod.mk.inj heq
    obtain ⟨rfl, body, rfl⟩ := ih hs
    exact ⟨rfl, '\\' :: c :: body, rfl⟩
  | case3 c cs _ hc =>
    obtain ⟨rfl, rfl⟩ := Prod.mk.inj (Option.some.inj h)
    exact ⟨rfl, [], by simpa using hc⟩
  | case4 c cs _ _ ih =>
    obtain ⟨⟨more, rest'⟩, hs, heq⟩ := Option.map_eq_some_iff.1 h
    obtain ⟨rfl, rfl⟩ := Prod.mk.inj heq
    obtain ⟨rfl, body, rfl⟩ := ih hs
    exact ⟨rfl, c :: body, rfl⟩

theorem eq_append_of_scanValue {depth : Nat} {quoting : Quoting} {p : Position}
    {cs value rest : List Char} (h : scanValue depth quoting p cs = .ok (value, rest)) :
    cs = value ++ rest := by
  -- A scan either stops where it stands or takes one or two characters and goes on.
  fun_induction scanValue depth quoting p cs generalizing value rest
  case case1 => cases h; rfl
  case case2 => cases h
  case case4 => cases h
  case case9 => cases h; rfl
  all_goals
    rename_i ih
    obtain ⟨more, hm, rfl⟩ := taking_eq_ok h
    rw [ih hm]
    rfl

/-- A group is taken with the parenthesis that closes it. -/
theorem eq_append_of_scanGroup {start : Position} {depth : Nat} {quoting : Quoting} {p : Position}
    {cs group rest : List Char} (h : scanGroup start depth quoting p cs = .ok (group, rest)) :
    cs = group ++ rest ∧ ∃ body, group = body ++ [')'] := by
  fun_induction scanGroup start depth quoting p cs generalizing group rest
  case case1 => cases h
  case case2 => cases h
  case case4 => cases h
  case case8 c cs _ _ hc _ =>
    cases h
    exact ⟨rfl, [], by simpa using hc⟩
  all_goals
    rename_i ih
    obtain ⟨more, hm, rfl⟩ := taking_eq_ok h
    obtain ⟨rfl, body, rfl⟩ := ih hm
    exact ⟨rfl, _ ++ body, (List.append_assoc _ _ _).symm⟩

/-! ### Names -/

theorem scanName_append (depth : Nat) (cs : List Char) :
    (scanName depth cs).1 ++ (scanName depth cs).2 = cs := by
  fun_induction scanName depth cs <;> simp_all

/-- The sign behind a name: blanks, and an equals sign that an exclamation mark
    may stand in front of. -/
theorem scanAssignment_eq {cs sign rest : List Char} {escaped : Bool}
    (h : scanAssignment cs = some (sign, escaped, rest)) :
    cs = sign ++ rest ∧ ∃ blanks, (∀ c ∈ blanks, isInlineBlank c = true) ∧
      sign = blanks ++ if escaped then ['='] else ['!', '='] := by
  have hcs := (List.takeWhile_append_dropWhile (p := isInlineBlank) (l := cs)).symm
  have hblank : ∀ c ∈ cs.takeWhile isInlineBlank, isInlineBlank c = true :=
    fun c hc => List.mem_takeWhile_imp hc
  rw [scanAssignment] at h
  split at h
  · obtain ⟨rfl, rfl, rfl⟩ : _ ∧ _ ∧ _ := by simpa using h
    rename_i hd
    exact ⟨by rw [List.append_assoc, List.singleton_append, ← hd, ← hcs], _, hblank, by simp⟩
  · obtain ⟨rfl, rfl, rfl⟩ : _ ∧ _ ∧ _ := by simpa using h
    rename_i hd
    exact ⟨by rw [List.append_assoc]; simp only [List.cons_append, List.nil_append, ← hd, ← hcs],
      _, hblank, by simp⟩
  · simp at h

/-- A tag name and what follows it. -/
theorem scanTag_append (cs : List Char) : (scanTag cs).1 ++ (scanTag cs).2 = cs := by
  let run := cs.takeWhile isTagChar
  let ending := (run.reverse.takeWhile fun c => c == ':' || c == '-').reverse
  have hsuffix : ending <:+ run := by
    rw [← List.reverse_prefix, List.reverse_reverse]
    exact List.takeWhile_prefix _
  have hrun : run.take (run.length - ending.length) ++ ending = run := by
    conv => lhs; rhs; rw [List.suffix_iff_eq_drop.1 hsuffix]
    exact List.take_append_drop _ _
  calc (scanTag cs).1 ++ (scanTag cs).2
      = run.take (run.length - ending.length) ++ (ending ++ cs.dropWhile isTagChar) := rfl
    _ = run ++ cs.dropWhile isTagChar := by rw [← List.append_assoc, hrun]
    _ = cs := List.takeWhile_append_dropWhile

/-! ### Indentation -/

theorem seekContent_blanks {blanks : List Char} (h : ∀ c ∈ blanks, isInlineBlank c = true)
    (line : Nat) (start cs : List Char) :
    seekContent line start (blanks ++ cs) = seekContent line start cs := by
  induction blanks with
  | nil => rfl
  | cons c blanks ih =>
    obtain ⟨hc, hblanks⟩ := List.forall_mem_cons.1 h
    rw [← ih hblanks, List.cons_append]
    simp only [isInlineBlank, Bool.or_eq_true, beq_iff_eq] at hc
    rcases hc with rfl | rfl <;> rfl

/-- The levels above the one that is reached are closed. -/
theorem closeLevels_append {closed levels : List Nat} {width : Nat}
    (hclosed : ∀ level ∈ closed, width < level) (hwidth : width = levels.headD 0) :
    closeLevels width (closed ++ levels) = (levels, closed.length) := by
  induction closed with
  | nil =>
    cases levels with
    | nil => rfl
    | cons level levels =>
      have hlevel : ¬width < level := by
        rw [hwidth]
        exact Nat.lt_irrefl level
      rw [List.nil_append, closeLevels, if_neg hlevel]
      rfl
  | cons level closed ih =>
    obtain ⟨hlevel, hclosed⟩ := List.forall_mem_cons.1 hclosed
    rw [List.cons_append, closeLevels, if_pos hlevel, ih hclosed]
    rfl

/-- The levels that are closed are the deepest ones. -/
theorem closeLevels_eq {width n : Nat} {levels remaining : List Nat}
    (h : closeLevels width levels = (remaining, n)) :
    ∃ closed, levels = closed ++ remaining ∧ closed.length = n ∧
      ∀ level ∈ closed, width < level := by
  induction levels generalizing n with
  | nil =>
    cases h
    exact ⟨[], rfl, rfl, List.forall_mem_nil _⟩
  | cons level levels ih =>
    rw [closeLevels] at h
    split at h
    · rename_i hdeeper
      cases h
      obtain ⟨closed, heq, hlength, hclosed⟩ := ih rfl
      exact ⟨level :: closed, congrArg (level :: ·) heq, congrArg (· + 1) hlength,
        List.forall_mem_cons.2 ⟨hdeeper, hclosed⟩⟩
    · cases h
      exact ⟨[], rfl, rfl, List.forall_mem_nil _⟩

end Lexer

end PugLint
