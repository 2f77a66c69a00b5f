import PugLint.Proofs.Component.Reading

/-!
# The ends of blocks

A block is closed by its own end tag: the first one of its name, whatever the case of the letters.
A template may hold templates, so each start tag of its name takes one more end tag. The reader
looks for the name as a text, so that it misses an end tag in other letters and stops at one with a
longer name. Where all tags up to the end of a block are spelled as the reader looks for them, it
takes the block up to its own end tag, and it says that a block has no end just when it has none.

* `Component.Ends`: the content of a block up to its end tag, in terms of the names of tags;
* `Component.splitTemplate_iff_ends`: the end tag of a template that the reader finds;
* `Component.ClosedBy`: the content of a block up to its own end tag;
* `Component.parse_closes`: the contents of the blocks that are read from a text.
-/

namespace PugLint

namespace Component

open Text

/-! ### Names of tags -/

/-- The name in an end tag that a text starts with. -/
def closingName? : List Char → Option (List Char)
  | '<' :: '/' :: text => some (text.takeWhile fun c => c.isAlphanum || c == '-')
  | _ => none

/-- The name in a start tag that a text starts with. -/
def openingName? : List Char → Option (List Char)
  | '<' :: text => tagName? text
  | _ => none

theorem closingName?_eq_some_iff {text found : List Char} :
    closingName? text = some found ↔
      ∃ rest, text = '<' :: '/' :: rest ∧
        rest.takeWhile (fun c => c.isAlphanum || c == '-') = found := by
  constructor
  · intro h
    unfold closingName? at h
    split at h
    · exact ⟨_, rfl, Option.some.inj h⟩
    · cases h
  · rintro ⟨rest, rfl, rfl⟩
    rfl

/-- No start tag starts where an end tag does. -/
theorem openingName?_of_closingName? {text found : List Char}
    (h : closingName? text = some found) : openingName? text = none := by
  obtain ⟨rest, rfl, -⟩ := closingName?_eq_some_iff.1 h
  rfl

theorem isPrefix_takeWhile_iff {p : Char → Bool} {name text : List Char}
    (h : ∀ c ∈ name, p c = true) : name <+: text.takeWhile p ↔ name <+: text := by
  constructor
  · exact fun hstarts => hstarts.trans (List.takeWhile_prefix p)
  · rintro ⟨rest, rfl⟩
    rw [List.takeWhile_append_of_pos h]
    exact List.prefix_append _ _

section Names

variable {name : List Char} (hname : ∀ c ∈ name, (c.isAlphanum || c == '-') = true)

include hname

/-- A search for an end tag stops at the names that start with the one searched for. -/
theorem isPrefix_closing_iff {text : List Char} :
    "</".toList ++ name <+: text ↔ ∃ found, closingName? text = some found ∧ name <+: found := by
  constructor
  · rintro ⟨rest, rfl⟩
    exact ⟨_, rfl, (isPrefix_takeWhile_iff hname).2 (List.prefix_append name rest)⟩
  · rintro ⟨found, hfound, hstarts⟩
    obtain ⟨rest, rfl, rfl⟩ := closingName?_eq_some_iff.1 hfound
    have hrest := (isPrefix_takeWhile_iff hname).1 hstarts
    exact List.cons_prefix_cons.2 ⟨rfl, List.cons_prefix_cons.2 ⟨rfl, hrest⟩⟩

theorem isPrefix_opening_iff (hhead : name.head?.any Char.isAlpha = true) {text : List Char} :
    '<' :: name <+: text ↔ ∃ found, openingName? text = some found ∧ name <+: found := by
  obtain ⟨c, name, rfl⟩ : ∃ c more, name = c :: more := by
    cases name with
    | nil => cases hhead
    | cons c name => exact ⟨c, name, rfl⟩
  constructor
  · rintro ⟨rest, rfl⟩
    have hfound : tagName? (c :: name ++ rest) =
        some ((c :: name ++ rest).takeWhile fun c => c.isAlphanum || c == '-') := by
      refine if_pos ?_
      rw [List.cons_append, List.takeWhile_cons, if_pos (hname c List.mem_cons_self)]
      exact hhead
    exact ⟨_, hfound, (isPrefix_takeWhile_iff hname).2 (List.prefix_append _ rest)⟩
  · rintro ⟨found, hfound, hstarts⟩
    unfold openingName? at hfound
    split at hfound
    · unfold tagName? at hfound
      dsimp only at hfound
      split at hfound
      · cases hfound
        exact List.cons_prefix_cons.2 ⟨rfl, (isPrefix_takeWhile_iff hname).1 hstarts⟩
      · cases hfound
    · cases hfound

end Names

/-! ### Own tags -/

/-- The content of a block up to its own end tag. The names that `closes` tells are those of its
    end tags, and each start tag whose name `opens` tells takes one more of them, unless the tag
    closes itself. A start tag goes on to its greater-than sign, those in quotes left out, and what
    stands in it is no tag. -/
inductive Ends (closes opens : List Char → Prop) :
    Nat → List Char → List Char → List Char → Prop where
  | last {text found : List Char} (hfound : closingName? text = some found)
    (hcloses : closes found) : Ends closes opens 1 text [] text
  | closing {depth : Nat} {c : Char} {text found content rest : List Char}
    (hfound : closingName? (c :: text) = some found) (hcloses : closes found)
    (h : Ends closes opens (depth + 1) text content rest) :
    Ends closes opens (depth + 2) (c :: text) (c :: content) rest
  | opening {depth : Nat} {text found tag behind content rest : List Char}
    (hfound : openingName? text = some found) (hopens : opens found)
    (htag : scanTag none text = some (tag, behind))
    (h : Ends closes opens (if endsWith tag "/>".toList then depth else depth + 1) behind content
      rest) :
    Ends closes opens depth text (tag ++ content) rest
  | other {depth : Nat} {c : Char} {text content rest : List Char}
    (hcloses : ∀ found, closingName? (c :: text) = some found → ¬closes found)
    (hopens : ∀ found, openingName? (c :: text) = some found → ¬opens found)
    (h : Ends closes opens depth text content rest) :
    Ends closes opens depth (c :: text) (c :: content) rest

section Ends

variable {closes opens closes' opens' : List Char → Prop} {depth : Nat} {c : Char}
  {text found content rest : List Char}

theorem not_ends_nil : ¬Ends closes opens depth [] content rest := by
  intro h
  cases h with
  | last hfound => cases hfound
  | opening hfound => cases hfound

/-- No tag starts in a text without a less-than sign. -/
theorem Ends.plain {front : List Char} (hfront : '<' ∉ front)
    (h : Ends closes opens depth text content rest) :
    Ends closes opens depth (front ++ text) (front ++ content) rest := by
  induction front with
  | nil => exact h
  | cons c front ih =>
    have hne : c ≠ '<' := fun h => hfront (h ▸ List.mem_cons_self)
    have hlater : '<' ∉ front := fun h => hfront (List.mem_cons_of_mem c h)
    refine .other (fun found hfound => ?_) (fun found hfound => ?_) (ih hlater)
    · obtain ⟨_, heq, -⟩ := closingName?_eq_some_iff.1 hfound
      exact absurd (List.cons.inj heq).1 hne
    · unfold openingName? at hfound
      split at hfound
      · rename_i heq
        exact absurd (List.cons.inj heq).1 hne
      · cases hfound

theorem ends_last_iff (hfound : closingName? text = some found) (hcloses : closes found) :
    Ends closes opens 1 text content rest ↔ content = [] ∧ rest = text := by
  constructor
  · intro h
    cases h with
    | last => exact ⟨rfl, rfl⟩
    | opening hopening =>
      rw [openingName?_of_closingName? hfound] at hopening
      cases hopening
    | other hnot => exact absurd hcloses (hnot _ hfound)
  · rintro ⟨rfl, rfl⟩
    exact .last hfound hcloses

theorem ends_closing_iff (hfound : closingName? (c :: text) = some found) (hcloses : closes found) :
    Ends closes opens (depth + 2) (c :: text) content rest ↔
      ∃ more, content = c :: more ∧ Ends closes opens (depth + 1) text more rest := by
  constructor
  · intro h
    cases h with
    | closing _ _ h => exact ⟨_, rfl, h⟩
    | opening hopening =>
      rw [openingName?_of_closingName? hfound] at hopening
      cases hopening
    | other hnot => exact absurd hcloses (hnot _ hfound)
  · rintro ⟨more, rfl, h⟩
    exact .closing hfound hcloses h

theorem ends_opening_iff (hfound : openingName? text = some found) (hopens : opens found) :
    Ends closes opens depth text content rest ↔
      ∃ tag behind more, scanTag none text = some (tag, behind) ∧ content = tag ++ more ∧
        Ends closes opens (if endsWith tag "/>".toList then depth else depth + 1) behind more
          rest := by
  constructor
  · intro h
    cases h with
    | last hclosing =>
      rw [openingName?_of_closingName? hclosing] at hfound
      cases hfound
    | closing hclosing =>
      rw [openingName?_of_closingName? hclosing] at hfound
      cases hfound
    | opening _ _ htag h => exact ⟨_, _, _, htag, rfl, h⟩
    | other _ hnot => exact absurd hopens (hnot _ hfound)
  · rintro ⟨tag, behind, more, htag, rfl, h⟩
    exact .opening hfound hopens htag h

theorem ends_other_iff (hcloses : ∀ found, closingName? (c :: text) = some found → ¬closes found)
    (hopens : ∀ found, openingName? (c :: text) = some found → ¬opens found) :
    Ends closes opens depth (c :: text) content rest ↔
      ∃ more, content = c :: more ∧ Ends closes opens depth text more rest := by
  constructor
  · intro h
    cases h with
    | last hfound hclosing => exact absurd hclosing (hcloses _ hfound)
    | closing hfound hclosing => exact absurd hclosing (hcloses _ hfound)
    | opening hfound hopening => exact absurd hopening (hopens _ hfound)
    | other _ _ h => exact ⟨_, rfl, h⟩
  · rintro ⟨more, rfl, h⟩
    exact .other hcloses hopens h

theorem Ends.append_eq (h : Ends closes opens depth text content rest) :
    content ++ rest = text := by
  induction h with
  | last => rfl
  | closing _ _ _ ih => rw [List.cons_append, ih]
  | opening _ _ htag _ ih => rw [List.append_assoc, ih, append_of_scanTag htag]
  | other _ _ _ ih => rw [List.cons_append, ih]

/-- A text has one content only. -/
theorem Ends.unique (h : Ends closes opens depth text content rest) {content' rest' : List Char}
    (h' : Ends closes opens depth text content' rest') : content' = content ∧ rest' = rest := by
  induction h generalizing content' rest' with
  | last hfound hcloses => exact (ends_last_iff hfound hcloses).1 h'
  | closing hfound hcloses _ ih =>
    obtain ⟨more, rfl, hmore⟩ := (ends_closing_iff hfound hcloses).1 h'
    obtain ⟨rfl, rfl⟩ := ih hmore
    exact ⟨rfl, rfl⟩
  | opening hfound hopens htag _ ih =>
    obtain ⟨tag, behind, more, htag', rfl, hmore⟩ := (ends_opening_iff hfound hopens).1 h'
    cases htag.symm.trans htag'
    obtain ⟨rfl, rfl⟩ := ih hmore
    exact ⟨rfl, rfl⟩
  | other hcloses hopens _ ih =>
    obtain ⟨more, rfl, hmore⟩ := (ends_other_iff hcloses hopens).1 h'
    obtain ⟨rfl, rfl⟩ := ih hmore
    exact ⟨rfl, rfl⟩

/-- Two ways to tell own tags agree on a tag that a text starts with. -/
structure AgreeAt (closes opens closes' opens' : List Char → Prop) (text : List Char) : Prop where
  closing : ∀ found, closingName? text = some found → (closes found ↔ closes' found)
  opening : ∀ found, openingName? text = some found → (opens found ↔ opens' found)

/-- Two ways to tell own tags that agree up to the end of a block find the same end. -/
theorem Ends.congr (h : Ends closes opens depth text content rest)
    (hagree : ∀ front back, text = front ++ back → front.length ≤ content.length →
      AgreeAt closes opens closes' opens' back) :
    Ends closes' opens' depth text content rest := by
  induction h with
  | last hfound hcloses =>
    have hat := hagree [] _ rfl (Nat.le_refl _)
    exact .last hfound ((hat.closing _ hfound).1 hcloses)
  | closing hfound hcloses _ ih =>
    have hat := hagree [] _ rfl (Nat.zero_le _)
    refine .closing hfound ((hat.closing _ hfound).1 hcloses) (ih fun front back htext hle => ?_)
    exact hagree (_ :: front) back (congrArg _ htext) (Nat.succ_le_succ hle)
  | @opening _ _ _ tag _ _ _ hfound hopens htag _ ih =>
    have hat := hagree [] _ rfl (Nat.zero_le _)
    refine .opening hfound ((hat.opening _ hfound).1 hopens) htag
      (ih fun front back htext hle => ?_)
    refine hagree (tag ++ front) back ?_ ?_
    · rw [← append_of_scanTag htag, htext, List.append_assoc]
    · rw [List.length_append, List.length_append]
      exact Nat.add_le_add_left hle _
  | other hcloses hopens _ ih =>
    have hat := hagree [] _ rfl (Nat.zero_le _)
    refine .other (fun found hfound => ?_) (fun found hfound => ?_)
      (ih fun front back htext hle => ?_)
    · exact mt (hat.closing found hfound).2 (hcloses found hfound)
    · exact mt (hat.opening found hfound).2 (hopens found hfound)
    · exact hagree (_ :: front) back (congrArg _ htext) (Nat.succ_le_succ hle)

end Ends

/-! ### What the reader looks for -/

section Search

variable {content rest : List Char}

/-- The search for an end tag finds the first name that starts with the one searched for. -/
theorem splitBefore?_iff_ends {name : List Char}
    (hname : ∀ c ∈ name, (c.isAlphanum || c == '-') = true) {text : List Char} :
    splitBefore? ("</".toList ++ name) text = some (content, rest) ↔
      Ends (name <+: ·) (fun _ => False) 1 text content rest := by
  induction text generalizing content with
  | nil => exact ⟨nofun, fun h => absurd h not_ends_nil⟩
  | cons c text ih =>
    by_cases hstarts : "</".toList ++ name <+: c :: text
    · obtain ⟨found, hfound, hcloses⟩ := (isPrefix_closing_iff hname).1 hstarts
      rw [splitBefore?_of_isPrefix hstarts, ends_last_iff hfound hcloses, Option.some.injEq,
        Prod.mk.injEq, eq_comm, eq_comm (b := rest)]
    · rw [← List.singleton_append, splitBefore?_cons hstarts, behind_eq_some_iff,
        List.singleton_append, ends_other_iff (fun found hfound hcloses => hstarts
          ((isPrefix_closing_iff hname).2 ⟨found, hfound, hcloses⟩)) fun _ _ => id]
      simp only [ih, List.singleton_append]

/-- The name of templates, as the reader looks for it. -/
theorem isTagName_template : ∀ c ∈ "template".toList, (c.isAlphanum || c == '-') = true := by
  have hall : ("template".toList.all fun c => c.isAlphanum || c == '-') = true := by decide +kernel
  exact List.all_eq_true.1 hall

theorem splitTemplate_of_not_isPrefix {c : Char} {text : List Char}
    (hopening : ¬"<template".toList <+: c :: text) (hclosing : ¬"</template".toList <+: c :: text)
    (fuel depth : Nat) :
    splitTemplate (fuel + 1) depth (c :: text) =
      behind [c] (splitTemplate (fuel + 1) depth text) :=
  splitTemplate_append (splitBefore?_cons hopening) (splitBefore?_cons hclosing) fuel depth

/-- An end tag closes one template, and what is left of it starts no tag. -/
theorem splitTemplate_of_isPrefix {c : Char} {text : List Char}
    (hclosing : "</template".toList <+: c :: text) (fuel depth : Nat) :
    splitTemplate (fuel + 2) (depth + 2) (c :: text) =
      behind [c] (splitTemplate (fuel + 1) (depth + 1) text) := by
  obtain ⟨left, hleft⟩ := hclosing
  have hchars : "</template".toList = '<' :: "/template".toList := rfl
  have htail : '<' ∉ "/template".toList := by decide
  rw [← hleft, splitTemplate_closing, if_neg (by omega)]
  rw [hchars, List.cons_append] at hleft
  obtain ⟨rfl, rfl⟩ := List.cons.inj hleft
  rw [splitTemplate_append (splitBefore?_plain htail left) (splitBefore?_plain htail left),
    behind_behind, hchars]
  rfl

theorem splitTemplate_nil (fuel depth : Nat) : splitTemplate fuel depth [] = none := by
  cases fuel <;> rfl

theorem isSome_of_splitTemplate {text : List Char} {fuel depth : Nat}
    (h : (splitTemplate fuel depth text).isSome = true) :
    (splitBefore? "</template".toList text).isSome = true := by
  cases fuel with
  | zero => cases h
  | succ fuel =>
    rw [splitTemplate] at h
    cases hclosing : splitBefore? "</template".toList text with
    | none =>
      rw [hclosing] at h
      cases h
    | some found => rfl

/-- Where a start tag comes first, it is passed over with what stands in it. -/
theorem splitTemplate_opening {text : List Char} (hopening : "<template".toList <+: text)
    (fuel depth : Nat) :
    splitTemplate (fuel + 1) depth text = (scanTag none text).bind fun (tag, rest) =>
      behind tag
        (splitTemplate fuel (if endsWith tag "/>".toList then depth else depth + 1) rest) := by
  rw [splitTemplate, splitBefore?_of_isPrefix hopening]
  cases hclosing : splitBefore? "</template".toList text with
  | none =>
    cases hscan : scanTag none text with
    | none => rfl
    | some pair =>
      obtain ⟨tag, rest⟩ := pair
      -- An end tag behind the start tag would be one of the text.
      have hnone : splitTemplate fuel (if endsWith tag "/>".toList then depth else depth + 1)
          rest = none := by
        refine Option.not_isSome_iff_eq_none.1 fun hsome => ?_
        have hsearch := isSome_splitBefore?_append tag (isSome_of_splitTemplate hsome)
        rw [append_of_scanTag hscan, hclosing] at hsearch
        cases hsearch
      rw [Option.bind_some]
      dsimp only
      rw [hnone]
      rfl
  | some found =>
    obtain ⟨front, left⟩ := found
    have hfront : 0 < front.length := by
      rw [List.length_pos_iff]
      rintro rfl
      have hstarts := isPrefix_of_splitBefore? hclosing
      rw [← List.nil_append left, append_of_splitBefore? hclosing] at hstarts
      obtain ⟨more, rfl⟩ := hopening
      have hsecond := (List.cons_prefix_cons.1 hstarts).2
      exact absurd (List.cons_prefix_cons.1 hsecond).1 (by decide)
    dsimp only
    rw [Option.filter_some, if_pos (by simpa using hfront)]
    dsimp only
    cases scanTag none text with
    | none =>
      rw [Option.getD_none, splitTemplate_nil]
      rfl
    | some pair => rfl

/-- The end of a template is found by the names that start with that of templates. -/
theorem splitTemplate_iff_ends {text content rest : List Char} {fuel depth : Nat}
    (hfuel : text.length < fuel) :
    splitTemplate fuel (depth + 1) text = some (content, rest) ↔
      Ends ("template".toList <+: ·) ("template".toList <+: ·) (depth + 1) text content rest := by
  -- By the length of the text, since a start tag is passed over as a whole.
  obtain ⟨length, hlength⟩ : ∃ length, text.length = length := ⟨_, rfl⟩
  induction length using Nat.strong_induction_on generalizing text content fuel depth with
  | _ length ih =>
  subst hlength
  obtain ⟨fuel, rfl⟩ := Nat.exists_eq_add_one_of_ne_zero (Nat.ne_zero_of_lt hfuel)
  rcases text with _ | ⟨c, text⟩
  · rw [splitTemplate_nil]
    exact ⟨nofun, fun h => absurd h not_ends_nil⟩
  rw [List.length_cons] at hfuel ih
  have hlater {left : List Char} (hleft : left.length < text.length + 1) {fuel depth : Nat}
      (hfuel : left.length < fuel) (content : List Char) :
      splitTemplate fuel (depth + 1) left = some (content, rest) ↔
        Ends ("template".toList <+: ·) ("template".toList <+: ·) (depth + 1) left content rest :=
    ih left.length hleft hfuel rfl
  by_cases hclosing : "</template".toList <+: c :: text
  · obtain ⟨found, hfound, hcloses⟩ := (isPrefix_closing_iff isTagName_template).1 hclosing
    cases depth with
    | zero =>
      obtain ⟨left, hleft⟩ := hclosing
      rw [← hleft, splitTemplate_closing, if_pos (Nat.le_refl 1), hleft,
        ends_last_iff hfound hcloses, Option.some.injEq, Prod.mk.injEq, eq_comm,
        eq_comm (b := rest)]
    | succ depth =>
      obtain ⟨fuel, rfl⟩ := Nat.exists_eq_add_one_of_ne_zero (n := fuel) (by omega)
      rw [splitTemplate_of_isPrefix hclosing, behind_eq_some_iff, ends_closing_iff hfound hcloses]
      simp only [hlater (Nat.lt_succ_self _) (show text.length < fuel + 1 by omega),
        List.singleton_append]
  by_cases hopening : "<template".toList <+: c :: text
  · obtain ⟨found, hfound, hopens⟩ :=
      (isPrefix_opening_iff isTagName_template (by decide)).1 hopening
    rw [splitTemplate_opening hopening, ends_opening_iff hfound hopens]
    cases hscan : scanTag none (c :: text) with
    | none => exact ⟨nofun, fun ⟨_, _, _, htag, _⟩ => nomatch htag⟩
    | some pair =>
      obtain ⟨tag, left⟩ := pair
      have hleft : left.length < text.length + 1 := by
        have hlength := congrArg List.length (append_of_scanTag hscan)
        have hpos := length_pos_of_scanTag hscan
        rw [List.length_append, List.length_cons] at hlength
        omega
      -- A tag that closes itself leaves the depth as it is.
      obtain ⟨depth', hdepth⟩ : ∃ depth', (if endsWith tag "/>".toList = true then depth + 1
          else depth + 1 + 1) = depth' + 1 := by
        split
        · exact ⟨depth, rfl⟩
        · exact ⟨depth + 1, rfl⟩
      rw [Option.bind_some]
      dsimp only
      rw [hdepth, behind_eq_some_iff]
      have hends (more : List Char) :
          splitTemplate fuel (depth' + 1) left = some (more, rest) ↔ _ :=
        hlater hleft (by omega) more
      constructor
      · rintro ⟨more, hcontent, hmore⟩
        exact ⟨tag, left, more, rfl, hcontent, hdepth ▸ (hends more).1 hmore⟩
      · rintro ⟨tag, left, more, htag, hcontent, hmore⟩
        cases htag
        exact ⟨more, hcontent, (hends more).2 (hdepth ▸ hmore)⟩
  · have hnone : ∀ found, closingName? (c :: text) = some found → ¬"template".toList <+: found :=
      fun found hfound hcloses =>
        hclosing ((isPrefix_closing_iff isTagName_template).2 ⟨found, hfound, hcloses⟩)
    have hnone' : ∀ found, openingName? (c :: text) = some found → ¬"template".toList <+: found :=
      fun found hfound hopens => hopening
        ((isPrefix_opening_iff isTagName_template (by decide)).2 ⟨found, hfound, hopens⟩)
    rw [splitTemplate_of_not_isPrefix hopening hclosing, behind_eq_some_iff,
      ends_other_iff hnone hnone']
    simp only [hlater (Nat.lt_succ_self _) (show text.length < fuel + 1 by omega),
      List.singleton_append]


end Search

/-! ### Closed blocks -/

/-- The content of a block of a name up to its own end tag, in front of the text from there on. The
    templates in a template take their end tags, and those in another block are none. -/
def ClosedBy (name : List Char) : List Char → List Char → List Char → Prop :=
  Ends (fun found => sameName found name = true)
    (fun found => sameName name "template".toList = true ∧
      sameName found "template".toList = true) 1

/-- The name that the reader looks for: that of a template is always in lower case. -/
def searched (name : List Char) : List Char :=
  if sameName name "template".toList then "template".toList else name

/-- A name in a tag that the reader takes for another one: it is the own one in other letters, or
    it goes on behind the one that is looked for. -/
def Misspelt (name found : List Char) : Prop :=
  found ≠ searched name ∧ (sameName found name = true ∨ searched name <+: found)

instance (name : List Char) : DecidablePred (Misspelt name) := fun found =>
  inferInstanceAs (Decidable (found ≠ searched name ∧
    (sameName found name = true ∨ searched name <+: found)))

/-- A text starts with a tag whose name the reader takes for another one. -/
def MisspeltAt (name text : List Char) : Prop :=
  (∃ found ∈ closingName? text, Misspelt name found) ∨
    sameName name "template".toList = true ∧ ∃ found ∈ openingName? text, Misspelt name found

instance (name : List Char) : DecidablePred (MisspeltAt name) := fun text =>
  inferInstanceAs (Decidable ((∃ found ∈ closingName? text, Misspelt name found) ∨
    sameName name "template".toList = true ∧ ∃ found ∈ openingName? text, Misspelt name found))

/-- All tags up to the own end tag of a block are spelled as the reader looks for them: one that is
    not stands behind the end tag. -/
def SpelledUpToEnd (name text : List Char) : Prop :=
  ∀ front back, text = front ++ back → MisspeltAt name back →
    ∃ content rest, ClosedBy name text content rest ∧ content.length < front.length

section Closed

variable {name text content rest : List Char}

theorem sameName_refl (name : List Char) : sameName name name = true :=
  beq_self_eq_true _

theorem sameName_searched (name : List Char) : sameName (searched name) name = true := by
  unfold searched
  split
  · rename_i htemplate
    exact beq_iff_eq.2 (beq_iff_eq.1 htemplate).symm
  · exact sameName_refl name

/-- A name that is spelled as it is looked for is an own one just when it is found. -/
theorem sameName_iff_isPrefix {found : List Char} (h : ¬Misspelt name found) :
    sameName found name = true ↔ searched name <+: found := by
  by_cases hfound : found = searched name
  · subst hfound
    exact iff_of_true (sameName_searched name) (List.prefix_refl _)
  · exact iff_of_false (fun hsame => h ⟨hfound, .inl hsame⟩) fun hstarts => h ⟨hfound, .inr hstarts⟩

/-- The own tags and those that the reader finds are the same where they are spelled well. -/
theorem agreeAt_of_not_misspeltAt (h : ¬MisspeltAt name text) :
    AgreeAt (fun found => sameName found name = true)
      (fun found => sameName name "template".toList = true ∧
        sameName found "template".toList = true)
      (searched name <+: ·)
      (fun found => sameName name "template".toList = true ∧ "template".toList <+: found) text where
  closing found hfound := sameName_iff_isPrefix fun hmisspelt => h (.inl ⟨found, hfound, hmisspelt⟩)
  opening found hfound := by
    refine and_congr_right fun htemplate => ?_
    have hsearched : searched name = "template".toList := if_pos htemplate
    have hname : sameName found name = true ↔ sameName found "template".toList = true := by
      rw [sameName, sameName, beq_iff_eq, beq_iff_eq, beq_iff_eq.1 htemplate]
    rw [← hname, sameName_iff_isPrefix fun hmisspelt => h (.inr ⟨htemplate, found, hfound,
      hmisspelt⟩), hsearched]

theorem AgreeAt.symm {closes opens closes' opens' : List Char → Prop}
    (h : AgreeAt closes opens closes' opens' text) : AgreeAt closes' opens' closes opens text where
  closing found hfound := (h.closing found hfound).symm
  opening found hfound := (h.opening found hfound).symm

/-- The content that the reader takes ends at the first tag that it finds. -/
theorem splitBlock_iff_ends (hname : ∀ c ∈ name, (c.isAlphanum || c == '-') = true) :
    splitBlock name text = some (content, rest) ↔
      Ends (searched name <+: ·)
        (fun found => sameName name "template".toList = true ∧ "template".toList <+: found) 1 text
        content rest := by
  unfold splitBlock searched
  by_cases htemplate : sameName name "template".toList = true
  · simp only [htemplate, if_true, true_and]
    exact splitTemplate_iff_ends (Nat.lt_succ_self _)
  · simp only [htemplate, Bool.false_eq_true, if_false, false_and]
    exact splitBefore?_iff_ends hname

/-- The reader takes a block up to its own end tag, if there is one. -/
theorem splitBlock_iff_closedBy (hname : ∀ c ∈ name, (c.isAlphanum || c == '-') = true)
    (hspelled : SpelledUpToEnd name text) :
    splitBlock name text = some (content, rest) ↔ ClosedBy name text content rest := by
  -- Were there a misspelt tag in front of the own end tag, that end tag would stand in front of it.
  have htake {content rest : List Char} (h : ClosedBy name text content rest) :
      splitBlock name text = some (content, rest) := by
    refine (splitBlock_iff_ends hname).2 (Ends.congr h fun front back htext hle => ?_)
    refine agreeAt_of_not_misspeltAt fun hmisspelt => ?_
    obtain ⟨content', rest', hclosed, hlt⟩ := hspelled front back htext hmisspelt
    rw [(Ends.unique h hclosed).1] at hlt
    exact Nat.not_lt_of_le hle hlt
  refine ⟨fun h => ?_, htake⟩
  refine ((splitBlock_iff_ends hname).1 h).congr fun front back htext hle => ?_
  refine (agreeAt_of_not_misspeltAt fun hmisspelt => ?_).symm
  obtain ⟨content', rest', hclosed, hlt⟩ := hspelled front back htext hmisspelt
  cases h.symm.trans (htake hclosed)
  exact Nat.not_lt_of_le hle hlt

/-- Text whose tags are all spelled as the reader looks for them. -/
theorem spelledUpToEnd_of_forall
    (h : ∀ n < text.length + 1, ¬MisspeltAt name (text.drop n)) : SpelledUpToEnd name text := by
  rintro front back rfl hmisspelt
  have hback := h front.length (by rw [List.length_append]; omega)
  rw [List.drop_left] at hback
  exact absurd hmisspelt hback

theorem StartTag.isTagName {tag : List Char} (h : StartTag text name tag rest) :
    ∀ c ∈ name, (c.isAlphanum || c == '-') = true := by
  have h := h.name_eq
  unfold tagName? at h
  dsimp only at h
  split at h
  · cases h
    intro c hc
    have hchar := List.mem_takeWhile_imp hc
    exact hchar
  · cases h

end Closed

/-- The blocks of a text are closed by their own end tags: the content of a block whose tags are
    spelled as the reader looks for them goes up to its own end tag, and a text is refused just
    for a start tag without an end or without an end tag. -/
theorem parse_closes (source : String) :
    (∀ component cursor name tag rest, Reached source component cursor →
      StartTag cursor.rest name tag rest → ¬ClosesItself tag → SpelledUpToEnd name rest →
        (∀ content endTag behind, BlockAt cursor.rest name tag content endTag behind ↔
          ClosedBy name rest content (endTag ++ behind) ∧ EndsTag endTag behind) ∧
        ((∀ content closing, ¬ClosedBy name rest content closing) →
          parse source = .error (unterminated name cursor))) ∧
    (∀ fault, parse source = .error fault → ∃ component cursor name,
      Reached source component cursor ∧ fault = unterminated name cursor ∧
        (Unfinished cursor.rest name ∨ ∃ tag rest, StartTag cursor.rest name tag rest ∧
          ¬ClosesItself tag ∧ (SpelledUpToEnd name rest →
            ∀ content closing, ¬ClosedBy name rest content closing))) ∧
    ∀ component, parse source = .ok component ↔
      ∃ cursor, Reached source component cursor ∧ Over cursor.rest := by
  refine ⟨fun component cursor name tag rest hreached htag hcloses hspelled => ⟨?_, ?_⟩,
    fun fault hparse => ?_, fun component => ⟨fun hparse => ?_, ?_⟩⟩
  · intro content endTag behind
    have hsplit : splitBlock name rest = some (content, endTag ++ behind) ↔
        ClosedBy name rest content (endTag ++ behind) :=
      splitBlock_iff_closedBy htag.isTagName hspelled
    constructor
    · intro hblock
      cases htag.tag_eq.symm.trans hblock.tag_eq
      exact ⟨hsplit.1 hblock.content_eq, hblock.endTag⟩
    · rintro ⟨hclosed, hends⟩
      obtain rfl := hclosed.append_eq
      exact ⟨htag.head, htag.name_eq, htag.tag_eq, hsplit.2 hclosed, hends⟩
  · intro hopen
    refine Outcome.parse_eq (.unclosed hreached htag hcloses ?_)
    refine Option.eq_none_iff_forall_ne_some.2 fun ⟨content, closing⟩ hcontent => ?_
    exact hopen content closing ((splitBlock_iff_closedBy htag.isTagName hspelled).1 hcontent)
  · cases parse_eq_iff.1 hparse with
    | unfinished hreached htag => exact ⟨_, _, _, hreached, rfl, .inl htag⟩
    | unclosed hreached htag hcloses hcontent =>
      refine ⟨_, _, _, hreached, rfl, .inr ⟨_, _, htag, hcloses, ?_⟩⟩
      intro hspelled content closing h
      rw [(splitBlock_iff_closedBy htag.isTagName hspelled).2 h] at hcontent
      cases hcontent
  · cases parse_eq_iff.1 hparse with
    | ended hreached hover => exact ⟨_, hreached, hover⟩
  · rintro ⟨cursor, hreached, hover⟩
    exact Outcome.parse_eq (.ended hreached hover)

/-- A template with another one in it, in a tag in other letters than its end tag. -/
theorem parse_closes_nested :
    let source := "<Template>a<template></template></template>"
    let name := "Template".toList
    let tag := "<Template>".toList
    let rest := "a<template></template></template>".toList
    StartTag source.toList name tag rest ∧ ¬ClosesItself tag ∧ SpelledUpToEnd name rest ∧
      ClosedBy name rest "a<template></template>".toList "</template>".toList := by
  intro source name tag rest
  have htag : StartTag source.toList name tag rest :=
    ⟨by decide +kernel, by decide +kernel, by decide +kernel⟩
  have hcloses : ¬ClosesItself tag := by decide +kernel
  have hspelled : SpelledUpToEnd name rest := spelledUpToEnd_of_forall (by decide +kernel)
  have hblock : BlockAt source.toList name tag "a<template></template>".toList
      ("</template".toList ++ ['>']) [] :=
    ⟨by decide +kernel, by decide +kernel, by decide +kernel, by decide +kernel,
      .sign [] (by decide +kernel)⟩
  have htakes := (parse_closes source).1 _ _ _ _ _ .start htag hcloses hspelled
  exact ⟨htag, hcloses, hspelled, ((htakes.1 _ _ _).1 hblock).1⟩

/-- An end tag in other letters is missed, one of a longer name ends a block, and a start tag of a
    longer name takes an end tag. -/
theorem parse_closes_fails :
    (ClosedBy "script".toList "x</SCRIPT>".toList "x".toList "</SCRIPT>".toList ∧
      parse "<script>x</SCRIPT>" = .error ⟨"script", 1⟩) ∧
    (ClosedBy "script".toList "a</scripts>b</script>".toList "a</scripts>b".toList
        "</script>".toList ∧
      parse "<script>a</scripts>b</script>" = .ok ⟨none, [⟨"a", 8, false, none⟩]⟩) ∧
    (ClosedBy "template".toList "<templates></template>".toList "<templates>".toList
        "</template>".toList ∧
      parse "<template><templates></template>" = .error ⟨"template", 1⟩) := by
  have hscript : closingName? "</script>".toList = some "script".toList := by decide +kernel
  have hupper : closingName? "</SCRIPT>".toList = some "SCRIPT".toList := by decide +kernel
  have htemplate : closingName? "</template>".toList = some "template".toList := by decide +kernel
  refine ⟨⟨?_, by decide +kernel⟩, ⟨?_, by decide +kernel⟩, ⟨?_, by decide +kernel⟩⟩
  · exact .plain (by decide : '<' ∉ "x".toList) (.last hupper (by decide +kernel))
  · refine .plain (by decide : '<' ∉ "a".toList) (.other ?_ nofun ?_)
    · rintro found ⟨⟩
      decide +kernel
    · exact .plain (by decide : '<' ∉ "/scripts>b".toList) (.last hscript (by decide +kernel))
  · refine .other nofun ?_ ?_
    · rintro found ⟨⟩
      decide +kernel
    · exact .plain (by decide : '<' ∉ "templates>".toList) (.last htemplate (by decide +kernel))

end Component

end PugLint
