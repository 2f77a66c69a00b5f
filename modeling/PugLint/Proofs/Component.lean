import PugLint.Component
import PugLint.Proofs.Expression
import PugLint.Proofs.Text.Search

/-!
# Places of the blocks of a component

* `Component.BlockAt`: a block as it is read, in front of the text behind it;
* `Component.readBlocks_invariant`: what every step of the reader keeps;
* `offset_pos_of_parse`: the text of a template starts behind its start tag, so
  it never starts where a template without tags does, at the first byte;
* `stands_of_parse`: the text of a template stands between its tags, at the byte
  and on the line that its block says.
-/

namespace PugLint

namespace Component

/-! ### Tags and ends of blocks -/

/-- A start tag takes the character at hand, and ends with it or goes on. -/
theorem scanTag_cons {quote : Option Char} {c : Char} {cs tag rest : List Char}
    (h : scanTag quote (c :: cs) = some (tag, rest)) :
    (∃ quote' taken, scanTag quote' cs = some (taken, rest) ∧ tag = c :: taken) ∨
      c = '>' ∧ tag = [c] ∧ rest = cs := by
  have hgoes {quote' : Option Char} (h : ((scanTag quote' cs).map fun found =>
      (c :: found.1, found.2)) = some (tag, rest)) :
      ∃ quote' taken, scanTag quote' cs = some (taken, rest) ∧ tag = c :: taken := by
    obtain ⟨⟨taken, behind⟩, htaken, hpair⟩ := Option.map_eq_some_iff.1 h
    cases hpair
    exact ⟨quote', taken, htaken, rfl⟩
  unfold scanTag at h
  split at h
  · exact .inl (hgoes h)
  split at h
  · exact .inl (hgoes h)
  split at h
  · rename_i hsign
    cases h
    exact .inr ⟨LawfulBEq.eq_of_beq hsign, rfl, rfl⟩
  · exact .inl (hgoes h)

/-- A start tag takes at least its greater-than sign. -/
theorem byteLength_pos_of_scanTag {quote : Option Char} {text tag rest : List Char}
    (h : scanTag quote text = some (tag, rest)) : 0 < Text.byteLength tag := by
  have hcons : ∃ c taken, tag = c :: taken := by
    cases text with
    | nil => cases h
    | cons c cs =>
      obtain ⟨_, taken, _, rfl⟩ | ⟨_, rfl, _⟩ := scanTag_cons h
      · exact ⟨c, taken, rfl⟩
      · exact ⟨c, [], rfl⟩
  obtain ⟨c, taken, rfl⟩ := hcons
  rw [Text.byteLength_cons]
  exact Nat.lt_of_lt_of_le c.utf8Size_pos (Nat.le_add_right _ _)

theorem append_of_scanTag {quote : Option Char} {text tag rest : List Char}
    (h : scanTag quote text = some (tag, rest)) : tag ++ rest = text := by
  induction text generalizing quote tag with
  | nil => cases h
  | cons c cs ih =>
    obtain ⟨quote', taken, htaken, rfl⟩ | ⟨rfl, rfl, rfl⟩ := scanTag_cons h
    · rw [List.cons_append, ih htaken]
    · rfl

theorem append_of_splitTemplate {fuel depth : Nat} {text content rest : List Char}
    (h : splitTemplate fuel depth text = some (content, rest)) : content ++ rest = text := by
  induction fuel generalizing depth text content rest with
  | zero => cases h
  | succ fuel ih =>
    rw [splitTemplate] at h
    split at h
    · cases h
    · rename_i front behind hclosing
      dsimp only at h
      split at h
      · -- A start tag in front of the end tag.
        rename_i before inner hnested
        have hopening := Text.append_of_splitBefore? (Option.filter_eq_some_iff.1 hnested).1
        have htag : ((scanTag none inner).getD (inner, [])).1 ++
            ((scanTag none inner).getD (inner, [])).2 = inner := by
          cases hscan : scanTag none inner with
          | none => simp
          | some found => exact append_of_scanTag hscan
        obtain ⟨⟨more, behind⟩, hmore, hpair⟩ := Option.map_eq_some_iff.1 h
        cases hpair
        rw [List.append_assoc, List.append_assoc, ih hmore, htag, hopening]
      · split at h
        · cases h
          exact Text.append_of_splitBefore? hclosing
        · obtain ⟨⟨more, behind⟩, hmore, hpair⟩ := Option.map_eq_some_iff.1 h
          cases hpair
          rw [List.append_assoc, ih hmore, Text.append_drop_of_splitBefore? hclosing]

theorem append_of_splitBlock {name text content rest : List Char}
    (h : splitBlock name text = some (content, rest)) : content ++ rest = text := by
  rw [splitBlock] at h
  split at h
  · exact append_of_splitTemplate h
  · exact Text.append_of_splitBefore? h

/-! ### Steps of the reader -/

/-- An end tag goes on to the first greater-than sign, or to the end of the text if there is
    none. The second text is the one behind it. -/
inductive EndsTag : List Char → List Char → Prop where
  | sign {inner : List Char} (rest : List Char) (h : '>' ∉ inner) : EndsTag (inner ++ ['>']) rest
  | text {inner : List Char} (h : '>' ∉ inner) : EndsTag inner []

/-- A block that a text starts with: its name, its start tag, its content, its end tag, and the
    text behind it. -/
structure BlockAt (text name tag content endTag rest : List Char) : Prop where
  head : text.head? = some '<'
  name_eq : tagName? (text.drop 1) = some name
  tag_eq : scanTag none text = some (tag, content ++ (endTag ++ rest))
  content_eq : splitBlock name (content ++ (endTag ++ rest)) = some (content, endTag ++ rest)
  endTag : EndsTag endTag rest

theorem BlockAt.text_eq {text name tag content endTag rest : List Char}
    (h : BlockAt text name tag content endTag rest) :
    text = tag ++ (content ++ (endTag ++ rest)) :=
  (append_of_scanTag h.tag_eq).symm

theorem BlockAt.lt_offset {start : Cursor} {name tag content endTag rest : List Char}
    (h : BlockAt start.rest name tag content endTag rest) :
    start.offset < (start.advance tag (content ++ (endTag ++ rest))).offset :=
  Nat.lt_add_of_pos_right (byteLength_pos_of_scanTag h.tag_eq)

/-- What the reader keeps when it passes over a text and when it adds a block holds of the
    component that it gives. -/
theorem readBlocks_invariant {motive : Component → Cursor → Prop}
    (hskip : ∀ component cursor taken rest, taken ++ rest = cursor.rest →
      motive component cursor → motive component (cursor.advance taken rest))
    (hblock : ∀ component start name attributes tag content endTag rest,
      BlockAt start.rest name tag content endTag rest → motive component start →
      let inner := start.advance tag (content ++ (endTag ++ rest))
      let closing := inner.advance content (endTag ++ rest)
      let behind := closing.advance endTag rest
      motive (component.addBlock name attributes content start inner closing behind) behind)
    {fuel : Nat} {component result : Component} {cursor : Cursor}
    (hread : readBlocks fuel component cursor = .ok result) (h : motive component cursor) :
    ∃ cursor', motive result cursor' := by
  induction fuel generalizing component cursor with
  | zero =>
    cases hread
    exact ⟨cursor, h⟩
  | succ fuel ih =>
    rw [readBlocks] at hread
    split at hread
    · cases hread
      exact ⟨cursor, h⟩
    · rename_i before text hbefore
      have hstart := hskip component cursor before text (Text.append_of_splitBefore? hbefore) h
      obtain ⟨behind, rfl⟩ := Text.isPrefix_of_splitBefore? hbefore
      split at hread
      · split at hread
        · rename_i comment rest hcomment
          refine ih hread (hskip _ _ _ _ ?_ hstart)
          rw [List.append_assoc, List.take_append_drop, Text.append_of_splitBefore? hcomment]
          rfl
        · cases hread
          exact ⟨_, hstart⟩
      · split at hread
        · exact ih hread (hskip _ _ _ _ rfl hstart)
        · rename_i name hname
          split at hread
          · cases hread
          · rename_i tag rest hscan
            split at hread
            · exact ih hread (hskip _ _ _ _ (append_of_scanTag hscan) hstart)
            · split at hread
              · cases hread
              · rename_i content rest' hsplit
                have hcontent := append_of_splitBlock hsplit
                subst hcontent
                -- The end tag goes on to its greater-than sign, or to the end.
                split at hread
                rename_i endTag rest'' hpair
                split at hpair
                · rename_i inner behind' hend
                  cases hpair
                  have hrest := Text.append_drop_of_splitBefore? hend
                  rw [List.append_assoc] at hrest
                  subst hrest
                  rw [← List.append_assoc inner] at hsplit hscan
                  exact ih hread (hblock _ _ _ _ _ _ _ _ ⟨rfl, hname, hscan, hsplit,
                    .sign _ (Text.notMem_of_splitBefore? hend)⟩ hstart)
                · rename_i hend
                  cases hpair
                  rw [← List.append_nil rest'] at hsplit hscan
                  exact ih hread (hblock _ _ _ _ _ _ _ _ ⟨rfl, hname, hscan, hsplit,
                    .text (Text.notMem_of_splitBefore?_eq_none hend)⟩ hstart)

/-! ### Templates -/

/-- What a block adds to a component: a template if there is none, a script, or nothing. -/
theorem addBlock_cases {component result : Component} {name : List Char}
    {attributes : List (List Char × Option (List Char))} {content : List Char}
    {start inner closing behind : Cursor}
    (h : component.addBlock name attributes content start inner closing behind = result) :
    (∃ block : TemplateBlock, result = { component with template := some block } ∧
      sameName name "template".toList = true ∧ block.content = String.ofList content ∧
      block.offset = inner.offset ∧ block.line = inner.line ∧
      block.startTag = (start.offset, inner.offset) ∧
      block.endTag = (closing.offset, behind.offset)) ∨
    (∃ block : ScriptBlock, result = { component with scripts := component.scripts ++ [block] } ∧
      block.content = String.ofList content ∧ block.offset = inner.offset) ∨
    result = component := by
  subst h
  rw [Component.addBlock]
  split
  · split
    · exact .inr (.inr rfl)
    · exact .inl ⟨_, rfl, ‹_›, rfl, rfl, rfl, rfl, rfl⟩
  · split
    · exact .inr (.inl ⟨_, rfl, rfl, rfl⟩)
    · exact .inr (.inr rfl)

/-- The text of the template, if there is one, starts behind its start tag. -/
def TagsInFront (component : Component) : Prop :=
  ∀ template, component.template = some template → template.startTag.1 < template.offset

/-- A block whose content starts behind its start tag can be added. -/
theorem TagsInFront.addBlock {component : Component} (h : component.TagsInFront)
    {start inner : Cursor} (hlt : start.offset < inner.offset) (name : List Char)
    (attributes : List (List Char × Option (List Char))) (content : List Char)
    (closing behind : Cursor) :
    (component.addBlock name attributes content start inner closing behind).TagsInFront := by
  generalize hadded : component.addBlock name attributes content start inner closing behind = result
  rcases addBlock_cases hadded with ⟨block, rfl, -, -, hoffset, -, hopening, -⟩ | ⟨_, rfl, -⟩ | rfl
  · rintro _ ⟨⟩
    rw [hoffset, hopening]
    exact hlt
  · exact h
  · exact h

theorem tagsInFront_of_readBlocks {fuel : Nat} {component result : Component} {cursor : Cursor}
    (hread : readBlocks fuel component cursor = .ok result) (h : component.TagsInFront) :
    result.TagsInFront := by
  obtain ⟨-, hresult⟩ := readBlocks_invariant (motive := fun component _ => component.TagsInFront)
    (fun _ _ _ _ _ h => h)
    (fun _ _ _ _ _ _ _ _ hblock h => h.addBlock hblock.lt_offset _ _ _ _ _) hread h
  exact hresult

/-- The text of a template never starts at the first byte of its component. -/
theorem offset_pos_of_parse {source : String} {component : Component} {template : TemplateBlock}
    (hparse : parse source = .ok component) (h : component.template = some template) :
    0 < template.offset := by
  have hstart : TagsInFront ⟨none, []⟩ := fun _ ht => nomatch ht
  exact Nat.zero_lt_of_lt (tagsInFront_of_readBlocks hparse hstart template h)

/-! ### Blocks in their text -/

/-- A cursor stands at its byte and on its line of a text. -/
def Cursor.StandsIn (text : List Char) (cursor : Cursor) : Prop :=
  ∃ passed, text = passed ++ cursor.rest ∧ cursor.offset = Text.byteLength passed ∧
    cursor.line = 1 + passed.count '\n'

theorem Cursor.StandsIn.advance {text taken rest : List Char} {cursor : Cursor}
    (h : cursor.StandsIn text) (hrest : taken ++ rest = cursor.rest) :
    (cursor.advance taken rest).StandsIn text := by
  obtain ⟨passed, htext, hoffset, hline⟩ := h
  refine ⟨passed ++ taken, ?_, ?_, ?_⟩
  · rw [htext, ← hrest, List.append_assoc]
    rfl
  · rw [Text.byteLength_append, ← hoffset]
    rfl
  · rw [List.count_append, ← Nat.add_assoc, ← hline]
    rfl

end Component

/-- A template block stands in a text between its tags, at the byte and on the line
    that it says. -/
structure TemplateBlock.StandsIn (text : List Char) (block : TemplateBlock) : Prop where
  content : ∃ before behind, text = before ++ block.content.toList ++ behind ∧
    block.offset = Text.byteLength before ∧ block.line = 1 + before.count '\n'
  startTag_le : block.startTag.1 ≤ block.offset
  startTag_eq : block.startTag.2 = block.offset
  endTag_eq : block.endTag.1 = block.offset + Text.byteLength block.content.toList
  endTag_le : block.endTag.1 ≤ block.endTag.2

namespace Component

/-- The template of a component, if there is one, stands in a text. -/
def TemplateStandsIn (text : List Char) (component : Component) : Prop :=
  ∀ template, component.template = some template → template.StandsIn text

/-- A block can be added whose parts follow each other in the text. -/
theorem TemplateStandsIn.addBlock {text : List Char} {component : Component}
    (h : component.TemplateStandsIn text) {start : Cursor} {tag content endTag : List Char}
    {rest rest' rest'' : List Char}
    (hinner : (start.advance tag rest).StandsIn text) (hcontent : content ++ rest' = rest)
    (name : List Char) (attributes : List (List Char × Option (List Char))) :
    (component.addBlock name attributes content start (start.advance tag rest)
      ((start.advance tag rest).advance content rest')
      (((start.advance tag rest).advance content rest').advance endTag rest'')).TemplateStandsIn
        text := by
  generalize hadded : component.addBlock name attributes content start _ _ _ = result
  rcases addBlock_cases hadded with
    ⟨block, rfl, -, hblock, hoffset, hline, hopening, hclosing⟩ | ⟨_, rfl, -⟩ | rfl
  · rintro _ ⟨⟩
    obtain ⟨before, htext, hbefore, hlines⟩ := hinner
    have hbytes : block.content.toList = content := by rw [hblock, String.toList_ofList]
    refine ⟨⟨before, rest', ?_, hoffset.trans hbefore, hline.trans hlines⟩, ?_, ?_, ?_, ?_⟩
    · rw [htext, hbytes, List.append_assoc, hcontent]
      rfl
    · rw [hopening, hoffset]
      exact Nat.le_add_right _ _
    · rw [hopening, hoffset]
    · rw [hclosing, hoffset, hbytes]
      rfl
    · rw [hclosing]
      exact Nat.le_add_right _ _
  · exact h
  · exact h

theorem templateStandsIn_of_readBlocks {text : List Char} {fuel : Nat}
    {component result : Component} {cursor : Cursor}
    (hread : readBlocks fuel component cursor = .ok result) (hcursor : cursor.StandsIn text)
    (h : component.TemplateStandsIn text) : result.TemplateStandsIn text := by
  have hresult : ∃ cursor' : Cursor, cursor'.StandsIn text ∧ result.TemplateStandsIn text := by
    refine readBlocks_invariant
      (motive := fun component cursor => cursor.StandsIn text ∧ component.TemplateStandsIn text)
      (fun _ _ _ _ hrest h => ⟨h.1.advance hrest, h.2⟩) ?_ hread ⟨hcursor, h⟩
    intro component start name attributes tag content endTag rest hblock h
    have hinner := h.1.advance hblock.text_eq.symm
    exact ⟨(hinner.advance rfl).advance rfl, h.2.addBlock hinner rfl _ _⟩
  obtain ⟨-, -, hresult⟩ := hresult
  exact hresult

/-- The template of a component stands in its text. -/
theorem stands_of_parse {source : String} {component : Component} {template : TemplateBlock}
    (hparse : parse source = .ok component) (h : component.template = some template) :
    template.StandsIn source.toList :=
  templateStandsIn_of_readBlocks hparse ⟨[], rfl, rfl, rfl⟩ (fun _ ht => nomatch ht) template h

end Component

theorem TemplateBlock.standsIn_bare (source : String) : (bare source).StandsIn source.toList where
  content := ⟨[], [], by rw [List.append_nil]; rfl, rfl, rfl⟩
  startTag_le := Nat.le_refl _
  startTag_eq := rfl
  endTag_eq := (Text.utf8ByteSize_eq source).trans (Nat.zero_add _).symm
  endTag_le := Nat.le_refl _

end PugLint
