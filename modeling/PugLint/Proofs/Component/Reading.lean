import PugLint.Proofs.Component.RoundTrip

/-!
# Runs of the reader

The blocks of a text are read from one less-than sign to the next: comments, signs without a tag
and start tags that close themselves are passed over, and each other start tag is read with its
content and its end tag. A run ends at the end of the text, or at a start tag without an end.

* `Component.Reached`: what the reader of a text comes to;
* `Component.Outcome`: how a run ends;
* `Component.parse_eq_iff`: reading a text gives what a run ends with.
-/

namespace PugLint

namespace Component

open Text

/-- A start tag that a text starts with, in front of the text behind it. -/
structure StartTag (text name tag rest : List Char) : Prop where
  head : text.head? = some '<'
  name_eq : tagName? (text.drop 1) = some name
  tag_eq : scanTag none text = some (tag, rest)

/-- A start tag without its greater-than sign that a text starts with. -/
structure Unfinished (text name : List Char) : Prop where
  head : text.head? = some '<'
  name_eq : tagName? (text.drop 1) = some name
  tag_eq : scanTag none text = none

/-- A start tag that closes itself has no content. -/
def ClosesItself (tag : List Char) : Prop :=
  endsWith tag "/>".toList = true

instance : DecidablePred ClosesItself := fun tag =>
  inferInstanceAs (Decidable (endsWith tag "/>".toList = true))

/-- The cursor behind a block that it stands in front of. -/
def Cursor.behindBlock (start : Cursor) (tag content endTag rest : List Char) : Cursor :=
  ((start.advance tag (content ++ (endTag ++ rest))).advance content (endTag ++ rest)).advance
    endTag rest

/-- A component with the block that a cursor stands in front of. -/
def withBlock (component : Component) (start : Cursor) (name tag content endTag rest : List Char) :
    Component :=
  let inner := start.advance tag (content ++ (endTag ++ rest))
  component.addBlock name (readAttributes tag.length ((tag.drop (name.length + 1)).dropLast))
    content start inner (inner.advance content (endTag ++ rest))
    (start.behindBlock tag content endTag rest)

/-- What the reader of a text comes to: the blocks that it has read, and where it stands. -/
inductive Reached (source : String) : Component → Cursor → Prop where
  | start : Reached source ⟨none, []⟩ ⟨0, 1, source.toList⟩
  | text {component : Component} {cursor : Cursor} {taken rest : List Char}
    (h : Reached source component cursor) (hrest : cursor.rest = taken ++ rest)
    (htaken : '<' ∉ taken) : Reached source component (cursor.advance taken rest)
  | comment {component : Component} {cursor : Cursor} {taken rest : List Char}
    (h : Reached source component cursor) (hopens : "<!--".toList <+: cursor.rest)
    (hends : splitBefore? "-->".toList cursor.rest = some (taken, rest)) :
    Reached source component (cursor.advance (taken ++ rest.take 3) (rest.drop 3))
  | sign {component : Component} {cursor : Cursor} {rest : List Char}
    (h : Reached source component cursor) (hrest : cursor.rest = '<' :: rest)
    (hcomment : ¬"<!--".toList <+: cursor.rest) (hname : tagName? rest = none) :
    Reached source component (cursor.advance ['<'] rest)
  | closed {component : Component} {cursor : Cursor} {name tag rest : List Char}
    (h : Reached source component cursor) (htag : StartTag cursor.rest name tag rest)
    (hcloses : ClosesItself tag) : Reached source component (cursor.advance tag rest)
  | block {component : Component} {cursor : Cursor} {name tag content endTag rest : List Char}
    (h : Reached source component cursor)
    (hblock : BlockAt cursor.rest name tag content endTag rest) (hcloses : ¬ClosesItself tag) :
    Reached source (component.withBlock cursor name tag content endTag rest)
      (cursor.behindBlock tag content endTag rest)

/-- No less-than sign is left in a text, or only the start of a comment without an end. -/
inductive Over : List Char → Prop where
  | text {text : List Char} (h : '<' ∉ text) : Over text
  | comment {text : List Char} (hopens : "<!--".toList <+: text)
    (hends : splitBefore? "-->".toList text = none) : Over text

/-- The fault of a block of a name whose start tag stands behind a cursor. -/
def unterminated (name : List Char) (start : Cursor) : UnterminatedBlock :=
  ⟨String.ofList (asciiLower name), start.line⟩

/-- How a run of the reader ends. -/
inductive Outcome (source : String) : Except UnterminatedBlock Component → Prop where
  | ended {component : Component} {cursor : Cursor} (h : Reached source component cursor)
    (hrest : Over cursor.rest) : Outcome source (.ok component)
  | unfinished {component : Component} {cursor : Cursor} {name : List Char}
    (h : Reached source component cursor) (htag : Unfinished cursor.rest name) :
    Outcome source (.error (unterminated name cursor))
  | unclosed {component : Component} {cursor : Cursor} {name tag rest : List Char}
    (h : Reached source component cursor) (htag : StartTag cursor.rest name tag rest)
    (hcloses : ¬ClosesItself tag) (hcontent : splitBlock name rest = none) :
    Outcome source (.error (unterminated name cursor))

/-! ### Steps of the reader -/

theorem drop_one_of_head? {text : List Char} {c : Char} (h : text.head? = some c) :
    text = c :: text.drop 1 := by
  rw [List.drop_one, List.cons_head?_tail h]

theorem BlockAt.startTag {text name tag content endTag rest : List Char}
    (h : BlockAt text name tag content endTag rest) :
    StartTag text name tag (content ++ (endTag ++ rest)) :=
  ⟨h.head, h.name_eq, h.tag_eq⟩

/-- A comment starts no tag. -/
theorem not_isPrefix_of_tagName? {text name : List Char} (hhead : text.head? = some '<')
    (h : tagName? (text.drop 1) = some name) : ¬"<!--".toList <+: text := by
  rw [drop_one_of_head? hhead]
  intro hopens
  obtain ⟨more, hmore⟩ := (List.cons_prefix_cons.1 hopens).2
  rw [← hmore] at h
  cases h

section Steps

variable {component : Component} {cursor : Cursor} {name tag rest taken : List Char}

theorem Cursor.advance_nil (hrest : cursor.rest = rest) : cursor.advance [] rest = cursor := by
  subst hrest
  rfl

theorem splitBefore?_sign (hrest : cursor.rest = '<' :: rest) :
    splitBefore? ['<'] cursor.rest = some ([], cursor.rest) :=
  splitBefore?_of_isPrefix (hrest ▸ List.prefix_append ['<'] rest)

theorem readBlocks_over (hrest : Over cursor.rest) (fuel : Nat) :
    readBlocks fuel component cursor = .ok component := by
  rcases fuel with _ | fuel
  · rfl
  cases hrest with
  | text hsign =>
    have hnone : splitBefore? ['<'] cursor.rest = none := by
      rw [← List.append_nil cursor.rest, splitBefore?_plain hsign]
      rfl
    rw [readBlocks, hnone]
  | comment hopens hends =>
    obtain ⟨more, hmore⟩ := hopens
    rw [readBlocks, splitBefore?_sign hmore.symm]
    dsimp only
    rw [if_pos (List.isPrefixOf_iff_prefix.2 ⟨more, hmore⟩), hends]

theorem readBlocks_of_isPrefix (hopens : "<!--".toList <+: cursor.rest)
    (hends : splitBefore? "-->".toList cursor.rest = some (taken, rest)) (fuel : Nat) :
    readBlocks (fuel + 1) component cursor =
      readBlocks fuel component (cursor.advance (taken ++ rest.take 3) (rest.drop 3)) := by
  obtain ⟨more, hmore⟩ := hopens
  rw [readBlocks, splitBefore?_sign hmore.symm]
  dsimp only
  rw [if_pos (List.isPrefixOf_iff_prefix.2 ⟨more, hmore⟩), hends]
  rfl

theorem readBlocks_of_sign (hrest : cursor.rest = '<' :: rest)
    (hcomment : ¬"<!--".toList <+: cursor.rest) (hname : tagName? rest = none) (fuel : Nat) :
    readBlocks (fuel + 1) component cursor =
      readBlocks fuel component (cursor.advance ['<'] rest) := by
  have hdrop : cursor.rest.drop 1 = rest := by rw [hrest]; rfl
  rw [readBlocks, splitBefore?_sign hrest]
  dsimp only
  rw [if_neg (mt List.isPrefixOf_iff_prefix.1 hcomment), hdrop, hname]
  rfl

theorem readBlocks_of_unfinished (htag : Unfinished cursor.rest name) (fuel : Nat) :
    readBlocks (fuel + 1) component cursor = .error (unterminated name cursor) := by
  rw [readBlocks, splitBefore?_sign (drop_one_of_head? htag.head)]
  dsimp only
  rw [if_neg (mt List.isPrefixOf_iff_prefix.1 (not_isPrefix_of_tagName? htag.head htag.name_eq)),
    htag.name_eq]
  dsimp only
  rw [htag.tag_eq]
  rfl

/-- Behind a start tag, the reader goes on with its content unless it closes itself. -/
theorem readBlocks_of_startTag (htag : StartTag cursor.rest name tag rest) (fuel : Nat) :
    readBlocks (fuel + 1) component cursor =
      if ClosesItself tag then readBlocks fuel component (cursor.advance tag rest)
      else
        match splitBlock name rest with
        | none => .error (unterminated name cursor)
        | some (content, rest') =>
          let inner := cursor.advance tag rest
          let closing := inner.advance content rest'
          let (endTag, rest) :=
            match splitBefore? ['>'] rest' with
            | some (endTag, rest) => (endTag ++ ['>'], rest.drop 1)
            | none => (rest', [])
          let behind := closing.advance endTag rest
          readBlocks fuel
            (component.addBlock name
              (readAttributes tag.length ((tag.drop (name.length + 1)).dropLast)) content cursor
              inner closing behind) behind := by
  rw [readBlocks, splitBefore?_sign (drop_one_of_head? htag.head)]
  dsimp only
  rw [if_neg (mt List.isPrefixOf_iff_prefix.1 (not_isPrefix_of_tagName? htag.head htag.name_eq)),
    htag.name_eq]
  dsimp only
  rw [htag.tag_eq, Cursor.advance_nil rfl]
  rfl

theorem readBlocks_of_closesItself (htag : StartTag cursor.rest name tag rest)
    (hcloses : ClosesItself tag) (fuel : Nat) :
    readBlocks (fuel + 1) component cursor =
      readBlocks fuel component (cursor.advance tag rest) := by
  rw [readBlocks_of_startTag htag, if_pos hcloses]

theorem readBlocks_of_unclosed (htag : StartTag cursor.rest name tag rest)
    (hcloses : ¬ClosesItself tag) (hcontent : splitBlock name rest = none) (fuel : Nat) :
    readBlocks (fuel + 1) component cursor = .error (unterminated name cursor) := by
  rw [readBlocks_of_startTag htag, if_neg hcloses, hcontent]

/-- An end tag is passed over up to its greater-than sign, or to the end of the text. -/
theorem EndsTag.split_eq {endTag rest : List Char} (h : EndsTag endTag rest) :
    (match splitBefore? ['>'] (endTag ++ rest) with
      | some (endTag, rest) => (endTag ++ ['>'], rest.drop 1)
      | none => (endTag ++ rest, [])) = (endTag, rest) := by
  cases h with
  | sign rest hsign =>
    have hfirst : splitBefore? ['>'] ('>' :: rest) = some ([], '>' :: rest) :=
      splitBefore?_of_isPrefix (List.prefix_append ['>'] rest)
    rw [List.append_assoc, splitBefore?_plain hsign, List.singleton_append, hfirst]
    simp [behind]
  | text hsign =>
    rw [splitBefore?_plain hsign, List.append_nil]
    rfl

theorem readBlocks_of_blockAt {content endTag : List Char}
    (hblock : BlockAt cursor.rest name tag content endTag rest) (hcloses : ¬ClosesItself tag)
    (fuel : Nat) :
    readBlocks (fuel + 1) component cursor =
      readBlocks fuel (component.withBlock cursor name tag content endTag rest)
        (cursor.behindBlock tag content endTag rest) := by
  rw [readBlocks_of_startTag hblock.startTag, if_neg hcloses, hblock.content_eq]
  dsimp only
  rw [hblock.endTag.split_eq]
  rfl

end Steps

/-! ### Runs -/

theorem length_pos_of_scanTag {quote : Option Char} {text tag rest : List Char}
    (h : scanTag quote text = some (tag, rest)) : 0 < tag.length := by
  refine List.length_pos_iff.2 ?_
  rintro rfl
  exact absurd (byteLength_pos_of_scanTag h) (Nat.lt_irrefl 0)

theorem StartTag.length_lt {text name tag rest : List Char} (h : StartTag text name tag rest) :
    rest.length < text.length := by
  rw [← append_of_scanTag h.tag_eq, List.length_append]
  exact Nat.lt_add_of_pos_left (length_pos_of_scanTag h.tag_eq)

theorem BlockAt.length_lt {text name tag content endTag rest : List Char}
    (h : BlockAt text name tag content endTag rest) : rest.length < text.length := by
  refine Nat.lt_of_le_of_lt ?_ h.startTag.length_lt
  rw [List.length_append, List.length_append]
  omega

theorem length_lt_of_comment {text taken rest : List Char}
    (h : splitBefore? "-->".toList text = some (taken, rest)) :
    (rest.drop 3).length < text.length := by
  have hsigns : "-->".toList.length = 3 := rfl
  rw [← append_drop_of_splitBefore? h, List.length_append, List.length_append, hsigns]
  omega

/-- Any text goes on to an end of a tag. -/
theorem exists_endsTag (text : List Char) :
    ∃ endTag rest, text = endTag ++ rest ∧ EndsTag endTag rest := by
  cases hsign : splitBefore? ['>'] text with
  | none =>
    have hplain := notMem_of_splitBefore?_eq_none hsign
    exact ⟨text, [], (List.append_nil text).symm, .text hplain⟩
  | some found =>
    exact ⟨found.1 ++ ['>'], _, (append_drop_of_splitBefore? hsign).symm,
      .sign _ (notMem_of_splitBefore? hsign)⟩

variable {source : String} {component : Component} {cursor : Cursor}

/-- The reader goes on from what it has come to. -/
theorem Reached.parse_eq (h : Reached source component cursor) :
    ∃ fuel, cursor.rest.length < fuel ∧ parse source = readBlocks fuel component cursor := by
  induction h with
  | start => exact ⟨_, Nat.lt_succ_self _, rfl⟩
  | text _ hrest htaken ih =>
    obtain ⟨fuel, hfuel, hparse⟩ := ih
    rw [hrest, List.length_append] at hfuel
    exact ⟨fuel, Nat.lt_of_le_of_lt (Nat.le_add_left _ _) hfuel,
      hparse.trans (readBlocks_text htaken fuel _ hrest)⟩
  | comment _ hopens hends ih =>
    obtain ⟨fuel, hfuel, hparse⟩ := ih
    obtain ⟨fuel, rfl⟩ := Nat.exists_eq_add_one_of_ne_zero (Nat.ne_zero_of_lt hfuel)
    exact ⟨fuel, Nat.lt_of_lt_of_le (length_lt_of_comment hends) (Nat.le_of_lt_succ hfuel),
      hparse.trans (readBlocks_of_isPrefix hopens hends fuel)⟩
  | sign _ hrest hcomment hname ih =>
    obtain ⟨fuel, hfuel, hparse⟩ := ih
    obtain ⟨fuel, rfl⟩ := Nat.exists_eq_add_one_of_ne_zero (Nat.ne_zero_of_lt hfuel)
    rw [hrest, List.length_cons] at hfuel
    exact ⟨fuel, Nat.lt_of_succ_lt_succ hfuel,
      hparse.trans (readBlocks_of_sign hrest hcomment hname fuel)⟩
  | closed _ htag hcloses ih =>
    obtain ⟨fuel, hfuel, hparse⟩ := ih
    obtain ⟨fuel, rfl⟩ := Nat.exists_eq_add_one_of_ne_zero (Nat.ne_zero_of_lt hfuel)
    exact ⟨fuel, Nat.lt_of_lt_of_le htag.length_lt (Nat.le_of_lt_succ hfuel),
      hparse.trans (readBlocks_of_closesItself htag hcloses fuel)⟩
  | block _ hblock hcloses ih =>
    obtain ⟨fuel, hfuel, hparse⟩ := ih
    obtain ⟨fuel, rfl⟩ := Nat.exists_eq_add_one_of_ne_zero (Nat.ne_zero_of_lt hfuel)
    exact ⟨fuel, Nat.lt_of_lt_of_le hblock.length_lt (Nat.le_of_lt_succ hfuel),
      hparse.trans (readBlocks_of_blockAt hblock hcloses fuel)⟩

theorem Outcome.parse_eq {result : Except UnterminatedBlock Component}
    (h : Outcome source result) : parse source = result := by
  cases h with
  | ended h hrest =>
    obtain ⟨fuel, -, hparse⟩ := h.parse_eq
    exact hparse.trans (readBlocks_over hrest fuel)
  | unfinished h htag =>
    obtain ⟨fuel, hfuel, hparse⟩ := h.parse_eq
    obtain ⟨fuel, rfl⟩ := Nat.exists_eq_add_one_of_ne_zero (Nat.ne_zero_of_lt hfuel)
    exact hparse.trans (readBlocks_of_unfinished htag fuel)
  | unclosed h htag hcloses hcontent =>
    obtain ⟨fuel, hfuel, hparse⟩ := h.parse_eq
    obtain ⟨fuel, rfl⟩ := Nat.exists_eq_add_one_of_ne_zero (Nat.ne_zero_of_lt hfuel)
    exact hparse.trans (readBlocks_of_unclosed htag hcloses hcontent fuel)

/-- At a less-than sign, a run ends or goes on to less of the text. -/
theorem Reached.step (h : Reached source component cursor) {rest : List Char}
    (hrest : cursor.rest = '<' :: rest) :
    (∃ result, Outcome source result) ∨
      ∃ component' cursor', Reached source component' cursor' ∧
        cursor'.rest.length < cursor.rest.length := by
  by_cases hopens : "<!--".toList <+: cursor.rest
  · cases hends : splitBefore? "-->".toList cursor.rest with
    | none => exact .inl ⟨_, .ended h (.comment hopens hends)⟩
    | some found => exact .inr ⟨_, _, .comment h hopens hends, length_lt_of_comment hends⟩
  cases hname : tagName? rest with
  | none =>
    exact .inr ⟨_, _, .sign h hrest hopens hname, by rw [hrest]; exact Nat.lt_succ_self _⟩
  | some name =>
    have hhead : cursor.rest.head? = some '<' := by rw [hrest]; rfl
    have hname : tagName? (cursor.rest.drop 1) = some name := by rw [hrest]; exact hname
    cases hscan : scanTag none cursor.rest with
    | none => exact .inl ⟨_, .unfinished h ⟨hhead, hname, hscan⟩⟩
    | some pair =>
      obtain ⟨tag, behind⟩ := pair
      have htag : StartTag cursor.rest name tag behind := ⟨hhead, hname, hscan⟩
      by_cases hcloses : ClosesItself tag
      · exact .inr ⟨_, _, .closed h htag hcloses, htag.length_lt⟩
      cases hcontent : splitBlock name behind with
      | none => exact .inl ⟨_, .unclosed h htag hcloses hcontent⟩
      | some pair =>
        obtain ⟨content, closing⟩ := pair
        obtain rfl := append_of_splitBlock hcontent
        obtain ⟨endTag, rest, rfl, hends⟩ := exists_endsTag closing
        have hblock : BlockAt cursor.rest name tag content endTag rest :=
          ⟨htag.head, htag.name_eq, hscan, hcontent, hends⟩
        exact .inr ⟨_, _, .block h hblock hcloses, hblock.length_lt⟩

/-- A run ends. -/
theorem Reached.exists_outcome (h : Reached source component cursor) :
    ∃ result, Outcome source result := by
  obtain ⟨length, hlength⟩ : ∃ length, cursor.rest.length = length := ⟨_, rfl⟩
  induction length using Nat.strong_induction_on generalizing component cursor with
  | _ length ih =>
  subst hlength
  cases hsign : splitBefore? ['<'] cursor.rest with
  | none => exact ⟨_, .ended h (.text (notMem_of_splitBefore?_eq_none hsign))⟩
  | some found =>
    obtain ⟨taken, rest⟩ := found
    obtain ⟨more, rfl⟩ := isPrefix_of_splitBefore? hsign
    have happend := append_of_splitBefore? hsign
    have hstart := Reached.text h happend.symm (notMem_of_splitBefore? hsign)
    rcases hstart.step rfl with hends | ⟨component', cursor', hreached, hlt⟩
    · exact hends
    · refine ih _ (Nat.lt_of_lt_of_le hlt ?_) hreached rfl
      rw [← happend, List.length_append]
      exact Nat.le_add_left _ _

/-- Reading a text gives what a run of the reader ends with. -/
theorem parse_eq_iff {result : Except UnterminatedBlock Component} :
    parse source = result ↔ Outcome source result := by
  refine ⟨fun hparse => ?_, Outcome.parse_eq⟩
  have hstart : Reached source ⟨none, []⟩ ⟨0, 1, source.toList⟩ := .start
  obtain ⟨outcome, h⟩ := hstart.exists_outcome
  rwa [← hparse, h.parse_eq]

end Component

end PugLint
