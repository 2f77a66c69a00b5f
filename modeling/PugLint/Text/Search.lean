/-!
# Searching a text

The first place where a pattern stands in a text. A search gives the text in
front of that place and the text from there on, pattern included.

* `append_of_splitBefore?`: a search loses nothing of the text.
-/

namespace PugLint.Text

/-- Splits a text in front of the first place where `pattern` stands. -/
def splitBefore? (pattern : List Char) : List Char → Option (List Char × List Char)
  | [] => if pattern.isEmpty then some ([], []) else none
  | c :: cs =>
    if pattern.isPrefixOf (c :: cs) then some ([], c :: cs)
    else (splitBefore? pattern cs).map fun (before, rest) => (c :: before, rest)

/-- Whether `pattern` stands at the end of a text. -/
def endsWith (text pattern : List Char) : Bool :=
  pattern.isSuffixOf text

theorem append_of_splitBefore? {pattern text before rest : List Char}
    (h : splitBefore? pattern text = some (before, rest)) : before ++ rest = text := by
  induction text generalizing before rest with
  | nil =>
    rw [splitBefore?] at h
    split at h
    · simp_all
    · simp at h
  | cons c cs ih =>
    rw [splitBefore?] at h
    split at h
    · simp_all
    · obtain ⟨⟨b, r⟩, hbr, hpair⟩ := Option.map_eq_some_iff.1 h
      obtain ⟨rfl, rfl⟩ := Prod.mk.inj hpair
      simp [ih hbr]

end PugLint.Text
