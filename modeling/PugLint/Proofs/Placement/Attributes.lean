import PugLint.Proofs.Linter.Hyphenation

/-!
# Ranges of names and values

An attribute has the range of its name and the range of its value. The document has the value as
written at the one, and the name at the other if it is written without quotes. Of a name in quotes
only the length is known: the range starts at the first quote, and so it ends in front of the last
character of the name, or within it.

* `ranges_of_attribute`: the text at the two ranges;
* `ranges_of_attribute_fails`: names in quotes.
-/

namespace PugLint

open Text

namespace PlacedToken.InPlace

variable {document : List Char} {first last : Nat} {token : PlacedToken}
  (h : token.InPlace document first last) {name : String} {value : Option String}
  (hattribute : token.attribute? = some (name, value))

include h hattribute

/-- A name that is not quoted stands at its range. An empty name has an empty range. -/
theorem slice?_nameRange (hquoted : isQuotedAt document token.start = true → name = "") :
    ∃ start stop, token.nameRange? = some (start, stop) ∧
      slice? document start stop = some name.toList := by
  refine ⟨token.start, min (token.start + name.utf8ByteSize) token.stop, ?_, ?_⟩
  · rw [nameRange?, hattribute]
    rfl
  · rw [utf8ByteSize_eq]
    by_cases hquote : isQuotedAt document token.start = true
    · obtain ⟨written, hslice, -⟩ := h.written
      obtain ⟨before, after, rfl, hbefore⟩ := append_of_slice? hslice
      have hle := h.start_le_stop
      rw [hquoted hquote, String.toList_empty, byteLength_nil, Nat.add_zero, Nat.min_eq_left hle,
        ← hbefore]
      exact slice?_append before [] (written ++ after)
    · obtain ⟨before, behind, rfl, hbefore, hroom⟩ :=
        h.exists_append hattribute (Bool.eq_false_iff.2 hquote)
      rw [Nat.min_eq_left hroom, ← hbefore]
      exact slice?_append before name.toList behind

end PlacedToken.InPlace

/-- The value of an attribute stands at its range, quotes included. -/
theorem PlacedToken.InPlace.slice?_valueRange {document : List Char} {first last : Nat}
    {token : PlacedToken} (h : token.InPlace document first last) {name text : String}
    (hattribute : token.attribute? = some (name, some text)) :
    ∃ start stop, token.valueRange? = some (start, stop) ∧
      slice? document start stop = some text.toList := by
  obtain ⟨written, hslice, hwritten⟩ := h.written
  obtain ⟨escaped, hkind⟩ := TokenKind.exists_of_attribute? hattribute
  rw [hkind] at hwritten
  obtain ⟨shown, blanks, blanks', -, -, -, rfl⟩ := hwritten
  generalize shown ++ blanks ++ assignment escaped ++ blanks' = front at hslice
  have hbytes := byteLength_of_slice? hslice
  obtain ⟨before, after, rfl, hbefore⟩ := append_of_slice? hslice
  rw [byteLength_append] at hbytes
  have hstart : max (token.stop - text.utf8ByteSize) token.start =
      byteLength (before ++ front) := by
    rw [utf8ByteSize_eq, byteLength_append]
    omega
  refine ⟨byteLength (before ++ front), token.stop, ?_, ?_⟩
  · rw [valueRange?, hattribute, ← hstart]
  · have hstop : token.stop = byteLength (before ++ front) + byteLength text.toList := by
      rw [byteLength_append]
      omega
    rw [hstop]
    simpa only [List.append_assoc] using slice?_append (before ++ front) text.toList after

/-- The document has the name of an attribute at the range of the name, unless it is written in
    quotes, and the value at the range of the value. -/
theorem ranges_of_attribute {template : String} {tokens : List Token}
    (h : tokenize template = .ok tokens) (before behind : List Char) :
    let document := before ++ template.toList ++ behind
    ∀ token ∈ placeTokens tokens template.toList (byteLength before) (1 + before.count '\n'),
      ∀ name value, token.attribute? = some (name, value) →
        ((isQuotedAt document token.start = true → name = "") →
          ∃ start stop, token.nameRange? = some (start, stop) ∧
            slice? document start stop = some name.toList) ∧
        (value = none → token.valueRange? = none) ∧
        ∀ text, value = some text → ∃ start stop, token.valueRange? = some (start, stop) ∧
          slice? document start stop = some text.toList := by
  intro document token htoken name value hattribute
  have hplace := (Placement.straight_and_inPlace h before behind).2 token htoken
  refine ⟨hplace.slice?_nameRange hattribute, ?_, ?_⟩
  · rintro rfl
    rw [PlacedToken.valueRange?, hattribute]
  · rintro text rfl
    exact hplace.slice?_valueRange hattribute

/-- The tokens of an element with a name of characters of two bytes, a wrapped value and an empty
    name in quotes. -/
def rangedTokens : List Token :=
  [⟨.tag "a", ⟨1, 1⟩, ⟨1, 2⟩⟩, ⟨.startAttributes, ⟨1, 2⟩, ⟨1, 3⟩⟩,
    ⟨.attribute ":é" (some "[\nb]") true, ⟨1, 3⟩, ⟨2, 3⟩⟩,
    ⟨.attribute "" (some "'c'") false, ⟨2, 4⟩, ⟨2, 11⟩⟩,
    ⟨.endAttributes, ⟨2, 11⟩, ⟨2, 12⟩⟩, ⟨.eos, ⟨2, 12⟩, ⟨2, 12⟩⟩]

/-- The attributes of that element behind a start tag, with the texts at their ranges. -/
theorem ranges_of_attribute_wrapped :
    let before := "<template>".toList
    let template := "a(:é =[\nb] ''!='c')"
    let document := before ++ template.toList ++ "</template>".toList
    let first : PlacedToken := ⟨.attribute ":é" (some "[\nb]") true, 12, 21, 1, 2⟩
    let second : PlacedToken := ⟨.attribute "" (some "'c'") false, 22, 29, 2, 2⟩
    tokenize template = .ok rangedTokens ∧
      (∃ start stop, first.nameRange? = some (start, stop) ∧
        slice? document start stop = some ":é".toList) ∧
      (∃ start stop, first.valueRange? = some (start, stop) ∧
        slice? document start stop = some "[\nb]".toList) ∧
      (∃ start stop, second.nameRange? = some (start, stop) ∧
        slice? document start stop = some []) ∧
      ∃ start stop, second.valueRange? = some (start, stop) ∧
        slice? document start stop = some "'c'".toList := by
  intro before template document first second
  have htokens : tokenize template = .ok rangedTokens := by decide +kernel
  have hranges := ranges_of_attribute htokens before "</template>".toList
  have hfirst := hranges first (by decide +kernel) ":é" (some "[\nb]") rfl
  have hsecond := hranges second (by decide +kernel) "" (some "'c'") rfl
  exact ⟨htokens, hfirst.1 fun hquoted => absurd hquoted (by decide +kernel),
    hfirst.2.2 _ rfl, hsecond.1 fun _ => rfl, hsecond.2.2 _ rfl⟩

/-- The tokens of an element with two names in quotes. -/
def quotedTokens : List Token :=
  [⟨.tag "a", ⟨1, 1⟩, ⟨1, 2⟩⟩, ⟨.startAttributes, ⟨1, 2⟩, ⟨1, 3⟩⟩,
    ⟨.attribute "b" none true, ⟨1, 3⟩, ⟨1, 6⟩⟩, ⟨.attribute "é" none true, ⟨1, 7⟩, ⟨1, 11⟩⟩,
    ⟨.endAttributes, ⟨1, 11⟩, ⟨1, 12⟩⟩, ⟨.eos, ⟨1, 12⟩, ⟨1, 12⟩⟩]

/-- The ranges of names in quotes. At the first one is a quote alone, which is the name neither with
    its quotes nor without them, and the second one cuts a character. -/
theorem ranges_of_attribute_fails :
    let template := "a(\"b\" \"é\")"
    let attributes := (placeTokens quotedTokens template.toList 0 1).filter (·.attribute?.isSome)
    tokenize template = .ok quotedTokens ∧
      attributes.map (·.attribute?) = [some ("b", none), some ("é", none)] ∧
      attributes.map (fun token => token.nameRange?.bind fun (start, stop) =>
        slice? template.toList start stop) = [some ['"'], none] := by
  intro template attributes
  exact ⟨by decide +kernel, by decide +kernel, by decide +kernel⟩

end PugLint
