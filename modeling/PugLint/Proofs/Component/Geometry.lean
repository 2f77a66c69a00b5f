import PugLint.Proofs.Component
import PugLint.Proofs.LineIndex

/-!
# The geometry of a component

What is said about the blocks of a component is so in its text. The start tag of the template, its
content and its end tag follow each other, at the bytes and on the line that the block says, and
the content of a script stands at its offset. No two contents share a byte, and the scripts are in
the order of the text.

* `TemplateBlock.LaidOut`: where a template stands in a text;
* `Component.LaidOut`: where the blocks of a component stand in a text;
* `Component.laidOut_of_parse`: the blocks that are read from a text.
-/

namespace PugLint

open Text

/-- The byte behind the content of a template. -/
def TemplateBlock.stop (block : TemplateBlock) : Nat :=
  block.offset + block.content.utf8ByteSize

/-- The byte behind the content of a script. -/
def ScriptBlock.stop (block : ScriptBlock) : Nat :=
  block.offset + block.content.utf8ByteSize

/-- A template stands in a text: its start tag, its content and its end tag follow each other. The
    end tag goes on to the first greater-than sign, or to the end of the text. -/
structure TemplateBlock.LaidOut (text : List Char) (block : TemplateBlock) : Prop where
  startTag : ∃ tag name, slice? text block.startTag.1 block.startTag.2 = some tag ∧
    tag.head? = some '<' ∧ tag.getLast? = some '>' ∧
    Component.tagName? (tag.drop 1) = some name ∧
    Component.sameName name "template".toList = true
  startTag_stop : block.startTag.2 = block.offset
  content : slice? text block.offset block.stop = some block.content.toList
  endTag_start : block.endTag.1 = block.stop
  endTag : ∃ tag, slice? text block.endTag.1 block.endTag.2 = some tag ∧
    "</template".toList <+: tag ∧
    ((∃ inner, tag = inner ++ ['>'] ∧ '>' ∉ inner) ∨
      ('>' ∉ tag ∧ block.endTag.2 = byteLength text))
  line : ∃ before behind, splitAt? text block.offset = some (before, behind) ∧
    block.line = 1 + before.count '\n'

/-- The blocks of a component stand in a text. The contents of the scripts follow each other, and
    that of the template is in front of a script or behind it. -/
structure Component.LaidOut (text : List Char) (component : Component) : Prop where
  template : ∀ block, component.template = some block → block.LaidOut text
  script : ∀ block ∈ component.scripts,
    slice? text block.offset block.stop = some block.content.toList
  scripts : component.scripts.Pairwise fun first second => first.stop < second.offset
  apart : ∀ block, component.template = some block → ∀ script ∈ component.scripts,
    block.stop < script.offset ∨ script.stop < block.offset

namespace Component

/-! ### Tags -/

theorem getLast?_of_scanTag {quote : Option Char} {text tag rest : List Char}
    (h : scanTag quote text = some (tag, rest)) : tag.getLast? = some '>' := by
  induction text generalizing quote tag with
  | nil => cases h
  | cons c cs ih =>
    obtain ⟨quote', taken, htaken, rfl⟩ | ⟨rfl, rfl, rfl⟩ := scanTag_cons h
    · rw [List.getLast?_cons, ih htaken]
      rfl
    · rfl

/-- The name of a start tag ends in front of its greater-than sign. -/
theorem tagName?_append {inner : List Char} (h : '>' ∈ inner) (rest : List Char) :
    tagName? (inner ++ rest) = tagName? inner := by
  have hname : (inner ++ rest).takeWhile (fun c => c.isAlphanum || c == '-') =
      inner.takeWhile fun c => c.isAlphanum || c == '-' := by
    rw [List.takeWhile_append, if_neg]
    intro hlength
    rw [← (List.takeWhile_prefix _).eq_of_length hlength] at h
    exact absurd (List.all_eq_true.1 List.all_takeWhile _ h) (by decide)
  rw [tagName?, tagName?, hname]

theorem isPrefix_of_splitTemplate {fuel depth : Nat} {text content rest : List Char}
    (h : splitTemplate fuel depth text = some (content, rest)) : "</template".toList <+: rest := by
  induction fuel generalizing depth text content rest with
  | zero => cases h
  | succ fuel ih =>
    rw [splitTemplate] at h
    split at h
    · cases h
    · rename_i front behind hclosing
      dsimp only at h
      split at h
      · obtain ⟨⟨more, behind⟩, hmore, hpair⟩ := Option.map_eq_some_iff.1 h
        cases hpair
        exact ih hmore
      · split at h
        · cases h
          exact isPrefix_of_splitBefore? hclosing
        · obtain ⟨⟨more, behind⟩, hmore, hpair⟩ := Option.map_eq_some_iff.1 h
          cases hpair
          exact ih hmore

/-- What a text starts with is in the end tag that it starts with, if it has no greater-than
    sign. -/
theorem EndsTag.isPrefix {endTag rest pattern : List Char} (h : EndsTag endTag rest)
    (hpattern : '>' ∉ pattern) (hfits : pattern <+: endTag ++ rest) : pattern <+: endTag := by
  cases h with
  | sign rest hinner =>
    rcases List.prefix_or_prefix_of_prefix hfits (List.prefix_append _ rest) with h | h
    · exact h
    · exact absurd (h.subset (List.mem_append_right _ List.mem_cons_self)) hpattern
  | text hinner => rwa [List.append_nil] at hfits

namespace BlockAt

variable {text name tag content endTag rest : List Char}
  (h : BlockAt text name tag content endTag rest)

include h

/-- The start tag has the name of the block. -/
theorem tagName?_tag : tag.head? = some '<' ∧ tagName? (tag.drop 1) = some name := by
  have hlast := getLast?_of_scanTag h.tag_eq
  have hhead := h.head
  have hname := h.name_eq
  rw [h.text_eq] at hhead hname
  rcases tag with _ | ⟨c, inner⟩
  · cases hlast
  · obtain rfl : c = '<' := Option.some.inj hhead
    have hsign : '>' ∈ inner :=
      (List.mem_cons.1 (List.mem_of_getLast? hlast)).resolve_left (by decide)
    refine ⟨rfl, ?_⟩
    rwa [List.cons_append, List.drop_succ_cons, List.drop_zero, tagName?_append hsign] at hname

theorem isPrefix_endTag (hname : sameName name "template".toList = true) :
    "</template".toList <+: endTag := by
  have hcontent := h.content_eq
  rw [splitBlock, if_pos hname] at hcontent
  exact h.endTag.isPrefix (by decide) (isPrefix_of_splitTemplate hcontent)

end BlockAt

/-! ### Blocks -/

section Placed

variable {text : List Char} {start : Cursor} {name tag content endTag rest : List Char}
  (hstart : start.StandsIn text) (hblock : BlockAt start.rest name tag content endTag rest)

include hstart hblock

/-- The content of a block stands behind its start tag. -/
theorem slice?_content : slice? text (start.advance tag (content ++ (endTag ++ rest))).offset
    ((start.advance tag (content ++ (endTag ++ rest))).offset + byteLength content) =
      some content := by
  obtain ⟨passed, htext, hoffset, -⟩ := hstart.advance hblock.text_eq.symm
  rw [htext, hoffset]
  exact slice?_append passed content (endTag ++ rest)

/-- A template stands where its block was read. -/
theorem laidOut_template (hname : sameName name "template".toList = true) {block : TemplateBlock}
    (hcontent : block.content = String.ofList content)
    (hoffset : block.offset = (start.advance tag (content ++ (endTag ++ rest))).offset)
    (hline : block.line = (start.advance tag (content ++ (endTag ++ rest))).line)
    (hopening : block.startTag = (start.offset, block.offset))
    (hclosing : block.endTag = (block.stop, block.stop + byteLength endTag)) :
    block.LaidOut text := by
  have hstop : block.stop = block.offset + byteLength content := by
    rw [TemplateBlock.stop, Text.utf8ByteSize_eq, hcontent, String.toList_ofList]
  obtain ⟨htag, htagName⟩ := hblock.tagName?_tag
  obtain ⟨before, htext, hbefore, hlines⟩ := hstart.advance hblock.text_eq.symm
  rw [← hoffset] at hbefore
  refine ⟨⟨tag, name, ?_, htag, getLast?_of_scanTag hblock.tag_eq, htagName, hname⟩, ?_, ?_, ?_,
    ⟨endTag, ?_, hblock.isPrefix_endTag hname, ?_⟩, ⟨before, content ++ (endTag ++ rest), ?_, ?_⟩⟩
  · obtain ⟨passed, htext, hpassed, -⟩ := hstart
    rw [hopening, hoffset, htext, hblock.text_eq]
    change slice? _ start.offset (start.offset + byteLength tag) = some tag
    rw [hpassed]
    exact slice?_append passed tag (content ++ (endTag ++ rest))
  · rw [hopening]
  · rw [hstop, hoffset, hcontent, String.toList_ofList]
    exact slice?_content hstart hblock
  · rw [hclosing]
  · have hpassed : block.stop = byteLength (before ++ content) := by
      rw [hstop, hbefore, byteLength_append]
    rw [hclosing, htext, hpassed]
    exact List.append_assoc before content (endTag ++ rest) ▸
      slice?_append (before ++ content) endTag rest
  · have hends := hblock.endTag
    cases hends with
    | sign rest hinner => exact .inl ⟨_, rfl, hinner⟩
    | text hinner =>
      refine .inr ⟨hinner, ?_⟩
      have hrest : (start.advance tag (content ++ (endTag ++ []))).rest =
          content ++ (endTag ++ []) := rfl
      rw [hclosing, htext, hrest, hstop, hbefore, List.append_nil, byteLength_append,
        byteLength_append, Nat.add_assoc]
  · rw [htext, hbefore]
    exact splitAt?_append before _
  · rw [hline, hlines]

end Placed

/-! ### Components -/

/-- The blocks that have been read stand in a text, in front of the cursor. -/
structure ReadUpTo (text : List Char) (component : Component) (cursor : Cursor) : Prop where
  standsIn : cursor.StandsIn text
  laidOut : component.LaidOut text
  template_le : ∀ block, component.template = some block → block.stop ≤ cursor.offset
  script_le : ∀ block ∈ component.scripts, block.stop ≤ cursor.offset

theorem ReadUpTo.advance {text taken rest : List Char} {component : Component} {cursor : Cursor}
    (h : component.ReadUpTo text cursor) (hrest : taken ++ rest = cursor.rest) :
    component.ReadUpTo text (cursor.advance taken rest) where
  standsIn := h.standsIn.advance hrest
  laidOut := h.laidOut
  template_le block hblock := Nat.le_add_right_of_le (h.template_le block hblock)
  script_le block hblock := Nat.le_add_right_of_le (h.script_le block hblock)

/-- A block that is read is behind those that have been read. -/
theorem ReadUpTo.addBlock {text name tag content endTag rest : List Char} {component : Component}
    {start : Cursor} (h : component.ReadUpTo text start)
    (hblock : BlockAt start.rest name tag content endTag rest)
    (attributes : List (List Char × Option (List Char))) :
    let inner := start.advance tag (content ++ (endTag ++ rest))
    let closing := inner.advance content (endTag ++ rest)
    let behind := closing.advance endTag rest
    (component.addBlock name attributes content start inner closing behind).ReadUpTo text
      behind := by
  intro inner closing behind
  have hinner : start.offset < inner.offset := hblock.lt_offset
  have hbehind : inner.offset + byteLength content ≤ behind.offset := Nat.le_add_right _ _
  have hskipped : component.ReadUpTo text behind :=
    ((h.advance hblock.text_eq.symm).advance rfl).advance rfl
  generalize hadded : component.addBlock name attributes content start inner closing behind = result
  rcases addBlock_cases hadded with
    ⟨block, rfl, hname, hcontent, hoffset, hline, hopening, hclosing⟩ |
    ⟨block, rfl, hcontent, hoffset⟩ | rfl
  · have hstop : block.stop = inner.offset + byteLength content := by
      rw [TemplateBlock.stop, Text.utf8ByteSize_eq, hcontent, String.toList_ofList, hoffset]
    refine ⟨hskipped.standsIn, ⟨?_, h.laidOut.script, h.laidOut.scripts, ?_⟩, ?_,
      hskipped.script_le⟩
    · rintro _ ⟨⟩
      refine laidOut_template h.standsIn hblock hname hcontent hoffset hline ?_ ?_
      · rw [hopening, hoffset]
      · rw [hclosing, hstop]
        rfl
    · rintro _ ⟨⟩ script hscript
      exact .inr (Nat.lt_of_le_of_lt (h.script_le script hscript) (hoffset ▸ hinner))
    · rintro _ ⟨⟩
      rw [hstop]
      exact hbehind
  · have hstop : block.stop = inner.offset + byteLength content := by
      rw [ScriptBlock.stop, Text.utf8ByteSize_eq, hcontent, String.toList_ofList, hoffset]
    have hlast {P : ScriptBlock → Prop} (hothers : ∀ script ∈ component.scripts, P script)
        (hlast : P block) : ∀ script ∈ component.scripts ++ [block], P script :=
      List.forall_mem_append.2 ⟨hothers, List.forall_mem_singleton.2 hlast⟩
    refine ⟨hskipped.standsIn, ⟨h.laidOut.template, hlast h.laidOut.script ?_, ?_, ?_⟩,
      hskipped.template_le, hlast hskipped.script_le ?_⟩
    · rw [hstop, hoffset, hcontent, String.toList_ofList]
      exact slice?_content h.standsIn hblock
    · refine List.pairwise_append.2 ⟨h.laidOut.scripts, List.pairwise_singleton _ _, ?_⟩
      intro script hscript last hmem
      rw [List.mem_singleton.1 hmem, hoffset]
      exact Nat.lt_of_le_of_lt (h.script_le script hscript) hinner
    · intro template htemplate
      refine hlast (h.laidOut.apart template htemplate) (.inl ?_)
      rw [hoffset]
      exact Nat.lt_of_le_of_lt (h.template_le template htemplate) hinner
    · rw [hstop]
      exact hbehind
  · exact hskipped

/-- The blocks that are read from a text stand in it. -/
theorem laidOut_of_parse {source : String} {component : Component}
    (h : parse source = .ok component) : component.LaidOut source.toList := by
  have hstart : ReadUpTo source.toList ⟨none, []⟩ ⟨0, 1, source.toList⟩ :=
    ⟨⟨[], rfl, rfl, rfl⟩, ⟨nofun, nofun, .nil, nofun⟩, nofun, nofun⟩
  obtain ⟨cursor, hread⟩ := readBlocks_invariant (motive := ReadUpTo source.toList)
    (fun _ _ _ _ hrest h => h.advance hrest)
    (fun _ _ _ attributes _ _ _ _ hblock h => h.addBlock hblock attributes) h hstart
  exact hread.laidOut

/-- A template with a greater-than sign in its start tag and another one inside, in front of a
    script whose end tag is cut off. -/
theorem laidOut_of_parse_nested :
    let source := "<TEMPLATE lang='>'>\n<template/>é</template x>\n<script>1</script"
    let component : Component :=
      ⟨some ⟨"\n<template/>é", 19, 1, false, some ">", (0, 19), (33, 46)⟩,
        [⟨"1", 55, false, none⟩]⟩
    parse source = .ok component ∧ component.LaidOut source.toList := by
  intro source component
  have hparse : parse source = .ok component := by decide +kernel
  exact ⟨hparse, laidOut_of_parse hparse⟩

end Component

end PugLint
