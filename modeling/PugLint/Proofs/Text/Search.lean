import Mathlib.Data.List.Basic
import PugLint.Text.Search

/-!
# Where a search ends

A search finds the first place of a pattern. It passes over what stands in front if the pattern
starts nowhere there, not even so that it goes on behind it.

* `Text.isPrefix_of_splitBefore?`, `Text.length_le_of_splitBefore?`: what is found is the pattern,
  at its first place;
* `Text.splitBefore?_append`: a search passes over a text;
* `Text.splitBefore?_plain`, `Text.splitBefore?_of_not_isInfix`, `Text.splitBefore?_double`: texts
  that do not have the pattern in them.
-/

namespace PugLint.Text

/-! ### What is found -/

theorem isPrefix_of_splitBefore? {pattern text before rest : List Char}
    (h : splitBefore? pattern text = some (before, rest)) : pattern <+: rest := by
  induction text generalizing before rest with
  | nil =>
    rw [splitBefore?] at h
    split at h
    · rename_i hempty
      cases h
      obtain rfl := List.isEmpty_iff.1 hempty
      exact List.prefix_refl _
    · cases h
  | cons c cs ih =>
    rw [splitBefore?] at h
    split at h
    · rename_i hpattern
      cases h
      exact List.isPrefixOf_iff_prefix.1 hpattern
    · obtain ⟨⟨front, behind⟩, hfound, hpair⟩ := Option.map_eq_some_iff.1 h
      cases hpair
      exact ih hfound

/-- A search for a pattern cuts a text in front of it and behind it. -/
theorem append_drop_of_splitBefore? {pattern text before rest : List Char}
    (h : splitBefore? pattern text = some (before, rest)) :
    before ++ pattern ++ rest.drop pattern.length = text := by
  obtain ⟨behind, rfl⟩ := isPrefix_of_splitBefore? h
  rw [List.drop_left, List.append_assoc, append_of_splitBefore? h]

theorem notMem_of_splitBefore? {c : Char} {text before rest : List Char}
    (h : splitBefore? [c] text = some (before, rest)) : c ∉ before := by
  induction text generalizing before rest with
  | nil => cases h
  | cons d text ih =>
    rw [splitBefore?] at h
    split at h
    · cases h
      exact List.not_mem_nil
    · rename_i hne
      obtain ⟨⟨front, behind⟩, hfound, hpair⟩ := Option.map_eq_some_iff.1 h
      cases hpair
      refine List.not_mem_cons_of_ne_of_not_mem ?_ (ih hfound)
      rintro rfl
      exact hne (by simp)

theorem notMem_of_splitBefore?_eq_none {c : Char} {text : List Char}
    (h : splitBefore? [c] text = none) : c ∉ text := by
  induction text with
  | nil => exact List.not_mem_nil
  | cons d text ih =>
    rw [splitBefore?] at h
    split at h
    · cases h
    · rename_i hne
      refine List.not_mem_cons_of_ne_of_not_mem ?_ (ih (Option.map_eq_none_iff.1 h))
      rintro rfl
      exact hne (by simp)

theorem splitBefore?_of_isPrefix {pattern text : List Char} (h : pattern <+: text) :
    splitBefore? pattern text = some ([], text) := by
  rcases text with _ | ⟨c, text⟩
  · rw [List.prefix_nil.1 h]
    rfl
  · rw [splitBefore?, if_pos (List.isPrefixOf_iff_prefix.2 h)]

theorem isSome_splitBefore?_append {pattern text : List Char} (before : List Char)
    (h : (splitBefore? pattern text).isSome = true) :
    (splitBefore? pattern (before ++ text)).isSome = true := by
  induction before with
  | nil => exact h
  | cons c before ih =>
    rw [List.cons_append, splitBefore?]
    split
    · rfl
    · rw [Option.isSome_map]
      exact ih

/-- A search gives the first place of the pattern. -/
theorem length_le_of_splitBefore? {pattern text before rest front : List Char}
    (h : splitBefore? pattern text = some (before, rest)) (hfront : front ++ pattern <+: text) :
    before.length ≤ front.length := by
  induction front generalizing text before with
  | nil =>
    rw [List.nil_append] at hfront
    rw [splitBefore?_of_isPrefix hfront] at h
    cases h
    exact Nat.le_refl _
  | cons c front ih =>
    obtain ⟨more, rfl⟩ := hfront
    rw [List.cons_append, List.cons_append, splitBefore?] at h
    split at h
    · cases h
      exact Nat.zero_le _
    · obtain ⟨⟨first, last⟩, hfound, heq⟩ := Option.map_eq_some_iff.1 h
      cases heq
      exact Nat.succ_le_succ (ih hfound (List.prefix_append _ _))

theorem not_isPrefix_of_splitBefore?_eq_none {pattern text : List Char}
    (h : splitBefore? pattern text = none) (front : List Char) : ¬front ++ pattern <+: text := by
  rintro ⟨more, rfl⟩
  have hfound : splitBefore? pattern (pattern ++ more) = some ([], pattern ++ more) :=
    splitBefore?_of_isPrefix (List.prefix_append _ _)
  have hsome := isSome_splitBefore?_append front (Option.isSome_of_eq_some hfound)
  rw [← List.append_assoc, h] at hsome
  cases hsome

/-- Nothing is found where the pattern does not stand. -/
theorem splitBefore?_eq_none {pattern text : List Char} (h : ¬pattern <:+: text) :
    splitBefore? pattern text = none := by
  refine Option.eq_none_iff_forall_not_mem.2 fun found hfound => h ?_
  have hsuffix : found.2 <:+ text := ⟨found.1, append_of_splitBefore? hfound⟩
  exact (isPrefix_of_splitBefore? hfound).isInfix.trans hsuffix.isInfix

/-! ### What is passed over -/

/-- What is found behind a text that is passed over. -/
def behind (before : List Char) (found : Option (List Char × List Char)) :
    Option (List Char × List Char) :=
  found.map fun (more, rest) => (before ++ more, rest)

@[simp] theorem behind_some (before more rest : List Char) :
    behind before (some (more, rest)) = some (before ++ more, rest) := rfl

@[simp] theorem behind_nil (found : Option (List Char × List Char)) : behind [] found = found :=
  Option.map_id'

theorem behind_behind (front before : List Char) (found : Option (List Char × List Char)) :
    behind front (behind before found) = behind (front ++ before) found := by
  cases found with
  | none => rfl
  | some parts => simp [behind]

theorem behind_eq_some_iff {before content rest : List Char}
    {found : Option (List Char × List Char)} :
    behind before found = some (content, rest) ↔
      ∃ more, content = before ++ more ∧ found = some (more, rest) := by
  constructor
  · intro h
    obtain ⟨⟨more, left⟩, rfl, hpair⟩ := Option.map_eq_some_iff.1 h
    cases hpair
    exact ⟨more, rfl, rfl⟩
  · rintro ⟨more, rfl, rfl⟩
    rfl

theorem splitBefore?_cons {pattern text : List Char} {c : Char} (h : ¬pattern <+: c :: text) :
    splitBefore? pattern ([c] ++ text) = behind [c] (splitBefore? pattern text) := by
  rw [List.singleton_append, splitBefore?, if_neg (mt List.isPrefixOf_iff_prefix.1 h)]
  rfl

/-- A search passes over a text in which the pattern starts nowhere. -/
theorem splitBefore?_append {pattern before rest : List Char}
    (h : ∀ front back, before = front ++ back → back ≠ [] → ¬pattern <+: back ++ rest) :
    splitBefore? pattern (before ++ rest) =
      behind before (splitBefore? pattern rest) := by
  induction before with
  | nil => simp
  | cons c before ih =>
    have hmore := ih fun front back hback => h (c :: front) back (by rw [hback, List.cons_append])
    have hcons : splitBefore? pattern ([c] ++ (before ++ rest)) =
        behind [c] (splitBefore? pattern (before ++ rest)) :=
      splitBefore?_cons (h [] (c :: before) rfl (List.cons_ne_nil _ _))
    rw [← List.singleton_append, List.append_assoc, hcons, hmore, behind_behind]

/-- A search passes over a text without the first character of the pattern. -/
theorem splitBefore?_plain {sign : Char} {marker before : List Char} (h : sign ∉ before)
    (rest : List Char) :
    splitBefore? (sign :: marker) (before ++ rest) =
      behind before (splitBefore? (sign :: marker) rest) := by
  refine splitBefore?_append fun front back hback hne hstarts => ?_
  rcases back with _ | ⟨c, back⟩
  · exact hne rfl
  · rw [List.cons_append, List.cons_prefix_cons] at hstarts
    exact h (hback ▸ hstarts.1 ▸ List.mem_append_right _ List.mem_cons_self)

/-- A search passes over a text without the pattern, if no part of the pattern at the end of the
    text goes on behind it. -/
theorem splitBefore?_of_not_over {pattern before rest : List Char} (h : ¬pattern <:+: before)
    (hover : ∀ back, back ≠ [] → back <:+ before → back <+: pattern → ¬pattern <+: back ++ rest) :
    splitBefore? pattern (before ++ rest) = behind before (splitBefore? pattern rest) := by
  refine splitBefore?_append fun front back hback hne hstarts => ?_
  have hsuffix : back <:+ before := hback ▸ List.suffix_append front back
  rcases Nat.le_total back.length pattern.length with hle | hle
  · exact hover back hne hsuffix
      (List.prefix_of_prefix_length_le (List.prefix_append back _) hstarts hle) hstarts
  · have hinside : pattern <+: back :=
      List.prefix_of_prefix_length_le hstarts (List.prefix_append back _) hle
    exact h (hinside.isInfix.trans hsuffix.isInfix)

/-- A search for a sign that is marked passes over a text without it, up to the next sign. -/
theorem splitBefore?_of_not_isInfix {sign : Char} {marker before rest : List Char}
    (hmarker : sign ∉ marker) (h : ¬(sign :: marker) <:+: before)
    (hrest : rest.head? = some sign) :
    splitBefore? (sign :: marker) (before ++ rest) =
      behind before (splitBefore? (sign :: marker) rest) := by
  obtain ⟨rest, rfl⟩ := List.head?_eq_some_iff.1 hrest
  refine splitBefore?_of_not_over h fun back hne hsuffix hprefix hstarts => ?_
  obtain ⟨more, hmore⟩ := hprefix
  rcases back with _ | ⟨c, back⟩
  · exact hne rfl
  · rw [List.cons_append, List.cons.injEq] at hmore
    obtain ⟨rfl, rfl⟩ := hmore
    rcases more with _ | ⟨d, more⟩
    · -- All of the pattern would stand in the text.
      rw [List.append_nil] at h
      exact h hsuffix.isInfix
    · -- The marker would go on over the next sign.
      rw [← List.cons_append, List.prefix_append_right_inj, List.cons_prefix_cons] at hstarts
      exact hmarker (hstarts.1 ▸ List.mem_append_right _ List.mem_cons_self)

/-- A doubled sign is found behind a text without it that does not end with the sign. -/
theorem splitBefore?_double {sign : Char} {before : List Char} (h : ¬[sign, sign] <:+: before)
    (hlast : before.getLast? ≠ some sign) (rest : List Char) :
    splitBefore? [sign, sign] (before ++ ([sign, sign] ++ rest)) =
      some (before, [sign, sign] ++ rest) := by
  rw [splitBefore?_of_not_over h, splitBefore?_of_isPrefix (List.prefix_append _ _), behind_some,
    List.append_nil]
  rintro back hne hsuffix hprefix -
  -- What would go on behind the text is the sign, or the doubled sign.
  have hsigns : ∀ c ∈ back, c = sign := fun c hc => by simpa using hprefix.subset hc
  obtain ⟨front, rfl⟩ := hsuffix
  rw [List.getLast?_append_of_ne_nil _ hne] at hlast
  obtain ⟨c, hc⟩ := Option.isSome_iff_exists.1 (List.getLast?_isSome.2 hne)
  exact hlast (hc.trans (congrArg some (hsigns c (List.mem_of_getLast? hc))))

end PugLint.Text
