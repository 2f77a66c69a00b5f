import PugLint.Text.Bytes

/-!
# Pieces of a text

A place in a text is the end of what stands in front of it, so a cut and a slice are told by the
pieces that they make of the text. Of two places the one with fewer bytes in front comes first.

* `Text.append_of_splitAt?`, `Text.append_of_slice?`: cuts and slices make pieces of the text;
* `Text.slice?_append`: the bytes of a piece of a text give back the piece;
* `Text.exists_append_of_isBoundary`: what lies between two boundaries.
-/

namespace PugLint.Text

/-- Cutting a text loses nothing of it. -/
theorem append_of_splitAt? {cs before after : List Char} {n : Nat}
    (h : splitAt? cs n = some (before, after)) : before ++ after = cs ∧ byteLength before = n := by
  fun_induction splitAt? cs n generalizing before after with
  | case1 =>
    cases h
    exact ⟨rfl, rfl⟩
  | case2 => cases h
  | case3 c cs n hle ih =>
    obtain ⟨⟨front, behind⟩, hcut, hpair⟩ := Option.map_eq_some_iff.1 h
    cases hpair
    obtain ⟨rfl, hbytes⟩ := ih hcut
    refine ⟨rfl, ?_⟩
    rw [byteLength_cons, hbytes]
    omega
  | case4 => cases h

/-- The bytes of a piece of a text give back the piece. -/
theorem slice?_append (before piece behind : List Char) :
    slice? (before ++ (piece ++ behind)) (byteLength before)
      (byteLength before + byteLength piece) = some piece := by
  rw [slice?, if_pos (Nat.le_add_right _ _), splitAt?_append]
  simp only [Nat.add_sub_cancel_left, splitAt?_append, Option.map_some]

/-- A slice of a text stands at its place in the text. -/
theorem append_of_slice? {cs piece : List Char} {start stop : Nat}
    (h : slice? cs start stop = some piece) :
    ∃ before after, cs = before ++ (piece ++ after) ∧ byteLength before = start := by
  rw [slice?] at h
  split at h
  · split at h
    · rename_i before rest hfirst
      obtain ⟨⟨front, after⟩, hlast, rfl⟩ := Option.map_eq_some_iff.1 h
      obtain ⟨rfl, hbytes⟩ := append_of_splitAt? hfirst
      obtain ⟨rfl, -⟩ := append_of_splitAt? hlast
      exact ⟨before, after, rfl, hbytes⟩
    · cases h
  · cases h

theorem byteLength_of_slice? {cs piece : List Char} {start stop : Nat}
    (h : slice? cs start stop = some piece) : start + byteLength piece = stop := by
  rw [slice?] at h
  split at h
  · split at h
    · obtain ⟨⟨front, behind⟩, hcut, rfl⟩ := Option.map_eq_some_iff.1 h
      have hbytes := (append_of_splitAt? hcut).2
      dsimp only
      omega
    · cases h
  · cases h

/-- Of two texts at the start of a third one, the one with fewer bytes is at the start of the
    other. -/
theorem isPrefix_of_byteLength_le {text before front : List Char} (hbefore : before <+: text)
    (hfront : front <+: text) (hle : byteLength before ≤ byteLength front) : before <+: front := by
  rcases List.prefix_or_prefix_of_prefix hbefore hfront with h | ⟨more, rfl⟩
  · exact h
  · rcases more with _ | ⟨c, more⟩
    · exact ⟨[], by rw [List.append_nil, List.append_nil]⟩
    · have hpos := c.utf8Size_pos
      rw [byteLength_append, byteLength_cons] at hle
      omega

/-- A boundary that does not lie in front of a place cuts what stands behind the place. -/
theorem exists_append_of_isBoundary {before text : List Char} {n : Nat}
    (h : isBoundary (before ++ text) n = true) (hle : byteLength before ≤ n) :
    ∃ between behind, text = between ++ behind ∧ n = byteLength before + byteLength between := by
  obtain ⟨⟨front, behind⟩, hcut⟩ := Option.isSome_iff_exists.1 h
  obtain ⟨htext, rfl⟩ := append_of_splitAt? hcut
  obtain ⟨between, rfl⟩ :=
    isPrefix_of_byteLength_le (List.prefix_append before text) ⟨behind, htext⟩ hle
  rw [List.append_assoc, List.append_cancel_left_eq] at htext
  exact ⟨between, behind, htext.symm, byteLength_append ..⟩

end PugLint.Text
