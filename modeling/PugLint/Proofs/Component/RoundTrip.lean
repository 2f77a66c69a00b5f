import PugLint.Proofs.Component.Printing
import PugLint.Proofs.LineIndex

/-!
# Reading printed components

Reading a printed component gives its first template and its scripts back, at the bytes at
which their texts were printed. The end of a template is found by counting tags: a text in which
templates are nested in each other leaves the count as it was.

* `Component.EndsBehind.behind_content`: the end of a template is found behind the templates
  in it;
* `Component.parse_print`: reading undoes printing.
-/

namespace PugLint

namespace Component

open Text

/-! ### The end of a template -/

/-- No tag of a template starts in a text in front of another one, so the same tag comes first in
    both. -/
theorem splitTemplate_append {before text : List Char}
    (hopening : splitBefore? "<template".toList (before ++ text) =
      behind before (splitBefore? "<template".toList text))
    (hclosing : splitBefore? "</template".toList (before ++ text) =
      behind before (splitBefore? "</template".toList text)) (fuel depth : Nat) :
    splitTemplate (fuel + 1) depth (before ++ text) =
      behind before (splitTemplate (fuel + 1) depth text) := by
  rw [splitTemplate, splitTemplate, hopening, hclosing]
  cases splitBefore? "</template".toList text with
  | none => rfl
  | some found =>
    obtain ⟨front, left⟩ := found
    have hfirst : (behind before (splitBefore? "<template".toList text)).filter
          (fun found => found.1.length < (before ++ front).length) =
        behind before ((splitBefore? "<template".toList text).filter
          fun found => found.1.length < front.length) := by
      cases splitBefore? "<template".toList text with
      | none => rfl
      | some found => simp [behind, Option.filter, apply_ite (Option.map _)]
    rw [behind_some]
    dsimp only
    rw [hfirst]
    cases (splitBefore? "<template".toList text).filter
        fun found => found.1.length < front.length with
    | none =>
      dsimp only [behind, Option.map_none]
      split
      · rfl
      · simp only [Option.map_map]
        congr 1
        funext found
        simp only [Function.comp_apply, List.append_assoc]
    | some found =>
      rw [behind_some]
      dsimp only [behind]
      rw [Option.map_map]
      congr 1
      funext found
      simp only [Function.comp_apply, List.append_assoc]

/-- The end of a template is found behind a text, however many tags may be read beyond its
    length. -/
def EndsBehind (depth : Nat) (text content rest : List Char) : Prop :=
  ∀ fuel, text.length < fuel → splitTemplate fuel depth text = some (content, rest)

variable {depth : Nat} {text content rest : List Char}

/-- The end is found behind a text in front in which no tag of a template starts. -/
theorem EndsBehind.prepend {before : List Char} (h : EndsBehind depth text content rest)
    (hopening : splitBefore? "<template".toList (before ++ text) =
      behind before (splitBefore? "<template".toList text))
    (hclosing : splitBefore? "</template".toList (before ++ text) =
      behind before (splitBefore? "</template".toList text)) :
    EndsBehind depth (before ++ text) (before ++ content) rest := by
  intro fuel hfuel
  obtain ⟨fuel, rfl⟩ := Nat.exists_eq_add_one_of_ne_zero (Nat.ne_zero_of_lt hfuel)
  have hread := h (fuel + 1) (by rw [List.length_append] at hfuel; omega)
  rw [splitTemplate_append hopening hclosing, hread, behind_some]

/-- The end is found behind a text without a less-than sign. -/
theorem EndsBehind.plain {before : List Char} (h : EndsBehind depth text content rest)
    (hbefore : '<' ∉ before) : EndsBehind depth (before ++ text) (before ++ content) rest :=
  h.prepend (splitBefore?_plain hbefore text) (splitBefore?_plain hbefore text)

/-- No tag comes in front of an end tag at the start. -/
theorem splitTemplate_closing (fuel depth : Nat) (text : List Char) :
    splitTemplate (fuel + 1) depth ("</template".toList ++ text) =
      if depth ≤ 1 then some ([], "</template".toList ++ text)
      else behind "</template".toList (splitTemplate fuel (depth - 1) text) := by
  have hfirst (found : Option (List Char × List Char)) :
      found.filter (fun found => found.1.length < ([] : List Char).length) = none := by
    cases found <;> rfl
  rw [splitTemplate, splitBefore?_of_isPrefix (List.prefix_append _ _)]
  dsimp only
  rw [hfirst, List.drop_left]
  rfl

/-- The end of a template that is not in another one. -/
theorem endsBehind_closing (text : List Char) :
    EndsBehind 1 ("</template".toList ++ text) [] ("</template".toList ++ text) := by
  intro fuel hfuel
  obtain ⟨fuel, rfl⟩ := Nat.exists_eq_add_one_of_ne_zero (Nat.ne_zero_of_lt hfuel)
  rw [splitTemplate_closing, if_pos (Nat.le_refl 1)]

/-- An end tag closes one template. -/
theorem EndsBehind.closing (h : EndsBehind (depth + 1) text content rest) :
    EndsBehind (depth + 2) ("</template".toList ++ text) ("</template".toList ++ content) rest := by
  intro fuel hfuel
  obtain ⟨fuel, rfl⟩ := Nat.exists_eq_add_one_of_ne_zero (Nat.ne_zero_of_lt hfuel)
  have hread := h fuel (by rw [List.length_append] at hfuel; simp at hfuel; omega)
  rw [splitTemplate_closing, if_neg (by omega), Nat.add_sub_cancel (depth + 1) 1, hread,
    behind_some]

/-- Where the end of a template is found, an end tag stands. -/
theorem EndsBehind.exists_closing (h : EndsBehind depth text content rest) :
    ∃ found, splitBefore? "</template".toList text = some found := by
  have hread := h (text.length + 1) (Nat.lt_succ_self _)
  rw [splitTemplate] at hread
  cases hfound : splitBefore? "</template".toList text with
  | none =>
    rw [hfound] at hread
    cases hread
  | some found => exact ⟨found, rfl⟩

/-- A start tag opens one more template, unless it closes itself. -/
theorem EndsBehind.opening {inner : Nat} (h : EndsBehind inner text content rest) {tag : List Char}
    (htag : "<template".toList <+: tag) (hscan : scanTag none (tag ++ text) = some (tag, text))
    (hinner : inner = if endsWith tag "/>".toList then depth else depth + 1) :
    EndsBehind depth (tag ++ text) (tag ++ content) rest := by
  intro fuel hfuel
  obtain ⟨fuel, rfl⟩ := Nat.exists_eq_add_one_of_ne_zero (Nat.ne_zero_of_lt hfuel)
  have hopening : splitBefore? "<template".toList (tag ++ text) = some ([], tag ++ text) :=
    splitBefore?_of_isPrefix (htag.trans (List.prefix_append _ _))
  obtain ⟨⟨front, left⟩, hclosing⟩ : ∃ found,
      splitBefore? "</template".toList (tag ++ text) = some found := by
    obtain ⟨found, hfound⟩ := h.exists_closing
    exact Option.isSome_iff_exists.1 (isSome_splitBefore?_append tag (by rw [hfound]; rfl))
  have hfront : 0 < front.length := by
    rw [List.length_pos_iff]
    rintro rfl
    obtain ⟨more, rfl⟩ := htag
    have hstarts := isPrefix_of_splitBefore? hclosing
    rw [← List.nil_append left, append_of_splitBefore? hclosing] at hstarts
    have hsecond : ['/'] <+: 't' :: ("emplate".toList ++ more ++ text) :=
      (List.prefix_append ['/'] "template".toList).trans (List.cons_prefix_cons.1 hstarts).2
    exact absurd (List.cons_prefix_cons.1 hsecond).1 (by decide)
  have hread := h fuel (by
    have hpos := List.IsPrefix.length_le htag
    rw [List.length_append] at hfuel
    simp at hpos
    omega)
  rw [splitTemplate, hopening, hclosing]
  dsimp only
  rw [Option.filter_some, if_pos (by simpa using hfront)]
  dsimp only
  rw [hscan]
  dsimp only [Option.getD_some]
  rw [← hinner, hread]
  rfl

/-- An attribute does not end with a slash. -/
theorem Attribute.exists_last (written : Attribute) :
    ∃ front c, written.body = front ++ [c] ∧ c ≠ '/' := by
  rw [Attribute.body]
  cases hvalue : written.value with
  | none =>
    obtain ⟨front, c, hname⟩ := List.eq_nil_or_concat' written.name |>.resolve_left written.name_ne
    have hc := (written.isName c (hname ▸ List.mem_append_right _ List.mem_cons_self)).2
    refine ⟨front, c, by rw [hname, List.append_nil], ?_⟩
    rintro rfl
    exact hc (by decide)
  | some value =>
    obtain ⟨quote, text⟩ := value
    obtain ⟨hquote, -⟩ := written.isValue quote text hvalue
    refine ⟨written.name ++ '=' :: quote :: text, quote, by simp, ?_⟩
    rintro rfl
    exact absurd hquote (by decide)

theorem last_attributeChars (attributes : List Attribute) :
    attributeChars attributes = [] ∨
      ∃ front c, attributeChars attributes = front ++ [c] ∧ c ≠ '/' := by
  induction attributes with
  | nil => exact .inl rfl
  | cons written attributes ih =>
    rw [attributeChars_cons]
    right
    rcases ih with hnil | ⟨front, c, hlast, hc⟩
    · obtain ⟨front, c, hbody, hc⟩ := written.exists_last
      exact ⟨written.blanks ++ front, c, by rw [hnil, hbody]; simp, hc⟩
    · exact ⟨written.blanks ++ (written.body ++ front), c, by rw [hlast]; simp, hc⟩

/-- A start tag with attributes ends with a slash only if one is put there. -/
theorem endsWith_attributeChars {front : List Char} (hfront : ∀ c ∈ front, c ≠ '/')
    (attributes : List Attribute) :
    endsWith (front ++ attributeChars attributes ++ ['>']) "/>".toList = false := by
  have hlast : ∀ cs : List Char, front ++ attributeChars attributes ≠ cs ++ ['/'] := by
    intro cs heq
    rcases last_attributeChars attributes with hnil | ⟨init, c, hinit, hc⟩
    · rw [hnil, List.append_nil] at heq
      exact hfront '/' (heq ▸ List.mem_append_right _ List.mem_cons_self) rfl
    · rw [hinit, ← List.append_assoc] at heq
      exact hc (List.cons.inj (List.append_inj_right' heq rfl)).1
  rw [endsWith, Bool.eq_false_iff, ne_eq, List.isSuffixOf_iff_suffix]
  rintro ⟨cs, hcs⟩
  refine hlast cs (List.append_cancel_right (hcs.symm.trans ?_))
  exact (List.append_assoc cs ['/'] ['>']).symm

/-- The start tag of a template, with its greater-than sign. -/
theorem scanTag_template (attributes : List Attribute) {ending : List Char}
    (hending : ending = ['>'] ∨ ending = ['/', '>']) (text : List Char) :
    scanTag none ("<template".toList ++ attributeChars attributes ++ ending ++ text) =
      some ("<template".toList ++ attributeChars attributes ++ ending, text) :=
  scanTag_start (by simp) attributes hending text

theorem isPrefix_template (attributes : List Attribute) (ending : List Char) :
    "<template".toList <+: "<template".toList ++ attributeChars attributes ++ ending := by
  rw [List.append_assoc]
  exact List.prefix_append _ _

/-- The end of a template is found behind all templates in it. -/
theorem EndsBehind.behind_content (inner : Content) (h : EndsBehind (depth + 1) text content rest)
    (hhead : text.head? = some '<') :
    EndsBehind (depth + 1) (inner.chars ++ text) (inner.chars ++ content) rest := by
  induction inner generalizing depth text content with
  | text cs noOpening noClosing =>
    exact h.prepend (splitBefore?_of_not_isInfix (by decide) noOpening hhead)
      (splitBefore?_of_not_isInfix (by decide) noClosing hhead)
  | nested before attributes inner behind ihBefore ihInner ihBehind =>
    have hclosed : EndsBehind (depth + 2) _ _ rest :=
      ((ihBehind h hhead).plain (show '<' ∉ ['>'] by decide)).closing
    have hinner := ihInner hclosed rfl
    have hopened : EndsBehind (depth + 1) _ _ rest := hinner.opening
      (isPrefix_template attributes ['>']) (scanTag_template attributes (.inl rfl) _) (by
        rw [endsWith_attributeChars (by simp)]
        rfl)
    have hwhole := ihBefore hopened rfl
    have hending : "</template>".toList = "</template".toList ++ ['>'] := rfl
    rw [Content.chars, hending]
    simpa only [List.append_assoc] using hwhole
  | selfClosing before attributes behind ihBefore ihBehind =>
    have hslash : endsWith ("<template".toList ++ attributeChars attributes ++ ['/', '>'])
        "/>".toList = true := by
      rw [endsWith, List.isSuffixOf_iff_suffix]
      exact List.suffix_append _ _
    have hopened : EndsBehind (depth + 1) _ _ rest := (ihBehind h hhead).opening
      (isPrefix_template attributes ['/', '>']) (scanTag_template attributes (.inr rfl) _) (by
        rw [hslash]
        rfl)
    have hwhole := ihBefore hopened rfl
    rw [Content.chars]
    simpa only [List.append_assoc] using hwhole

/-! ### Parts of a component -/

theorem Cursor.advance_advance (cursor : Cursor) (cs ds middle rest : List Char) :
    (cursor.advance cs middle).advance ds rest = cursor.advance (cs ++ ds) rest := by
  simp only [Cursor.advance, byteLength_append, List.count_append, Nat.add_assoc]

/-- Text is passed over. -/
theorem readBlocks_text {cs rest : List Char} (h : '<' ∉ cs) (fuel : Nat) (component : Component)
    {cursor : Cursor} (hcursor : cursor.rest = cs ++ rest) :
    readBlocks fuel component cursor = readBlocks fuel component (cursor.advance cs rest) := by
  rcases fuel with _ | fuel
  · rfl
  have hrest : (cursor.advance cs rest).rest = rest := rfl
  rw [readBlocks, readBlocks, hcursor, splitBefore?_plain h, hrest]
  cases splitBefore? ['<'] rest with
  | none => rfl
  | some found =>
    obtain ⟨before, text⟩ := found
    rw [behind_some]
    dsimp only
    rw [Cursor.advance_advance cursor cs before]

/-- The first end of a comment is its last. -/
theorem splitBefore?_comment {body rest : List Char}
    (h : ¬"-->".toList <:+: (body ++ "-->".toList).dropLast) :
    splitBefore? "-->".toList (body ++ ("-->".toList ++ rest)) =
      some (body, "-->".toList ++ rest) := by
  rw [splitBefore?_append, splitBefore?_of_isPrefix (List.prefix_append _ _), behind_some,
    List.append_nil]
  intro front back hback hne hstarts
  have hpos := List.length_pos_iff.2 hne
  have hinside : "-->".toList <+: back ++ "--".toList :=
    List.prefix_of_prefix_length_le hstarts ⟨'>' :: rest, by rw [List.append_assoc]; rfl⟩ (by
      rw [List.length_append]
      change 3 ≤ back.length + 2
      omega)
  have hbody : (body ++ "-->".toList).dropLast = front ++ (back ++ "--".toList) := by
    rw [hback, List.dropLast_append_of_ne_nil (by decide), List.append_assoc]
    rfl
  exact h (hbody ▸ hinside.isInfix.trans (List.suffix_append front _).isInfix)

/-- A comment is passed over. -/
theorem readBlocks_comment {cs rest : List Char} (opens : "<!--".toList <+: cs)
    (closes : "-->".toList <:+ cs) (first : ¬"-->".toList <:+: cs.dropLast) (fuel : Nat)
    (component : Component) {cursor : Cursor} (hcursor : cursor.rest = cs ++ rest) :
    readBlocks (fuel + 1) component cursor =
      readBlocks fuel component (cursor.advance cs rest) := by
  obtain ⟨body, rfl⟩ := closes
  have hopens : "<!--".toList <+: body ++ "-->".toList ++ rest :=
    opens.trans (List.prefix_append _ _)
  have hsign : ['<'] <+: body ++ "-->".toList ++ rest :=
    (List.prefix_append ['<'] "!--".toList).trans hopens
  rw [readBlocks, hcursor, splitBefore?_of_isPrefix hsign]
  dsimp only
  rw [if_pos (List.isPrefixOf_iff_prefix.2 hopens), List.append_assoc, splitBefore?_comment first]
  dsimp only
  rw [Cursor.advance_advance]
  rfl

/-! ### Blocks -/

/-- The characters of the names of blocks are none of those that end a name. -/
theorem notMem_of_isBlockChar {c : Char} (h : isBlockChar c = true) :
    c ∉ ['"', '\'', '>', '/', '<'] := by
  intro hm
  simp only [List.mem_cons, List.not_mem_nil, or_false] at hm
  rcases hm with rfl | rfl | rfl | rfl | rfl <;> exact absurd h (by decide)

theorem toLower_of_isBlockChar {c : Char} (h : isBlockChar c = true) : c.toLower = c := by
  simp only [isBlockChar, Bool.or_eq_true, beq_iff_eq] at h
  have hupper : ¬(c.val ≥ 'A'.val ∧ c.val ≤ 'Z'.val) := by
    rintro ⟨hle, hge⟩
    simp only [UInt32.le_iff_toNat_le, ge_iff_le] at hle hge
    have hcodes : 'A'.val.toNat = 65 ∧ 'Z'.val.toNat = 90 ∧ 'a'.val.toNat = 97 ∧
      '9'.val.toNat = 57 := ⟨rfl, rfl, rfl, rfl⟩
    rcases h with (h | h) | rfl
    · have hle := of_decide_eq_true (Bool.and_eq_true_iff.1 h).1
      simp only [UInt32.le_iff_toNat_le, ge_iff_le] at hle
      omega
    · have hle := of_decide_eq_true (Bool.and_eq_true_iff.1 h).2
      simp only [UInt32.le_iff_toNat_le] at hle
      omega
    · exact absurd hle (by decide)
  exact dif_neg hupper

namespace Block

variable (block : Block)

/-- A name has lower-case letters, digits and dashes, and a letter first. -/
theorem isName : block.name.head?.any Char.isLower = true ∧
    ∀ c ∈ block.name, isBlockChar c = true := by
  cases block with
  | template => exact ⟨rfl, List.all_eq_true.1 rfl⟩
  | other _ _ _ isName => exact isName

theorem exists_name : ∃ c name, block.name = c :: name ∧ c.isLower = true := by
  obtain ⟨c, hhead, hc⟩ := (Option.any_eq_true _ _).1 block.isName.1
  obtain ⟨name, hname⟩ := List.head?_eq_some_iff.1 hhead
  exact ⟨c, name, hname, hc⟩

/-- The name of a start tag is read up to its end. -/
theorem tagName?_append {rest : List Char}
    (hrest : ∀ c ∈ rest.head?, (c.isAlphanum || c == '-') = false) :
    tagName? (block.name ++ rest) = some block.name := by
  have hname : ∀ c ∈ block.name, (c.isAlphanum || c == '-') = true := by
    intro c hc
    have hchar := block.isName.2 c hc
    simp only [isBlockChar, Bool.or_eq_true] at hchar
    rcases hchar with (hlower | hdigit) | hdash
    · rw [Lexer.isAlphanum_of_isLower hlower, Bool.true_or]
    · rw [Char.isAlphanum, hdigit, Bool.or_true, Bool.true_or]
    · rw [hdash, Bool.or_true]
  have hletter : block.name.head?.any Char.isAlpha = true := by
    obtain ⟨c, hc, hlower⟩ := (Option.any_eq_true _ _).1 block.isName.1
    refine (Option.any_eq_true _ _).2 ⟨c, hc, ?_⟩
    exact Lexer.isAlpha_of_isLower hlower
  rw [tagName?, (Lexer.takeWhile_append_stop hname hrest).1, if_pos hletter]

/-- The name of a block is in lower case. -/
theorem sameName_iff {name : List Char} (hname : asciiLower name = name) :
    sameName block.name name = true ↔ block.name = name := by
  have hlower : asciiLower block.name = block.name := by
    refine (List.map_congr_left fun c hc => ?_).trans (List.map_id _)
    exact toLower_of_isBlockChar (block.isName.2 c hc)
  rw [sameName, hlower, hname, beq_iff_eq]

/-- The start tag of a block is read up to its greater-than sign. -/
theorem scanTag_startTag (rest : List Char) :
    scanTag none (block.startTag ++ rest) = some (block.startTag, rest) := by
  have hfront : ∀ c ∈ '<' :: block.name, c ∉ ['"', '\'', '>'] := by
    refine List.forall_mem_cons.2 ⟨by decide, fun c hc hm => ?_⟩
    exact notMem_of_isBlockChar (block.isName.2 c hc)
      (List.mem_append_left ['/', '<'] hm)
  exact scanTag_start hfront block.attributes (.inl rfl) rest

theorem endsWith_startTag : endsWith block.startTag "/>".toList = false := by
  have hfront : ∀ c ∈ '<' :: block.name, c ≠ '/' := by
    refine List.forall_mem_cons.2 ⟨by decide, fun c hc => ?_⟩
    rintro rfl
    exact notMem_of_isBlockChar (block.isName.2 _ hc) (by decide)
  exact endsWith_attributeChars hfront block.attributes

/-- The content of a block is read up to its end tag. -/
theorem splitBlock_content (rest : List Char) :
    splitBlock block.name (block.content ++ (block.endTag ++ rest)) =
      some (block.content, block.endTag ++ rest) := by
  cases block with
  | template attributes content =>
    have hends := (endsBehind_closing ('>' :: rest)).behind_content content rfl
    rw [List.append_nil] at hends
    exact hends _ (Nat.lt_succ_self _)
  | other name attributes content isName isOther noClosing =>
    have hname : ¬sameName name "template".toList = true := fun hsame =>
      isOther (((Block.other name attributes content isName isOther noClosing).sameName_iff
        (by decide)).1 hsame)
    have hmarker : '<' ∉ '/' :: name := by
      intro hm
      rcases List.mem_cons.1 hm with h | h
      · exact absurd h (by decide)
      · exact notMem_of_isBlockChar (isName.2 _ h) (by decide)
    have hends : ('<' :: '/' :: name) <+: '<' :: '/' :: (name ++ ['>']) ++ rest :=
      ⟨'>' :: rest, by simp⟩
    rw [splitBlock]
    refine (if_neg hname).trans ((splitBefore?_of_not_isInfix hmarker noClosing rfl).trans ?_)
    have hfound := splitBefore?_of_isPrefix hends
    exact (congrArg (behind content) hfound).trans (by rw [behind_some, List.append_nil]; rfl)

/-- The attributes of a block are read as they are printed. -/
theorem readAttributes_startTag :
    readAttributes block.startTag.length
        ((block.startTag.drop (block.name.length + 1)).dropLast) =
      block.attributes.map fun written => (written.name, written.value.map Prod.snd) := by
  have hdrop : block.startTag.drop (block.name.length + 1) =
      attributeChars block.attributes ++ ['>'] := by
    rw [startTag, List.drop_succ_cons, List.append_assoc, List.drop_left]
  rw [hdrop, List.dropLast_concat]
  refine readsAttributes_attributeChars block.attributes _ ?_
  simp only [startTag, List.length_cons, List.length_append]
  omega

end Block

/-- The cursor behind a text. -/
def Cursor.behind (before rest : List Char) : Cursor :=
  ⟨byteLength before, 1 + before.count '\n', rest⟩

theorem Cursor.advance_behind (before cs middle rest : List Char) :
    (Cursor.behind before middle).advance cs rest = Cursor.behind (before ++ cs) rest := by
  simp only [Cursor.behind, Cursor.advance, byteLength_append, List.count_append, Nat.add_assoc]

/-- The attribute of a name, among those read. -/
theorem attribute?_map (attributes : List Attribute) (name : String) :
    attribute? (attributes.map fun written => (written.name, written.value.map Prod.snd)) name =
      (attributes.find? (·.isNamed name)).map fun written => written.value.map Prod.snd := by
  rw [attribute?, List.find?_map, Option.map_map]
  rfl

theorem lang_map (attributes : List Attribute) :
    ((attribute? (attributes.map fun written => (written.name, written.value.map Prod.snd))
      "lang").join).map String.ofList = langOf attributes := by
  rw [attribute?_map, langOf]
  cases attributes.find? (·.isNamed "lang") with
  | none => rfl
  | some written =>
    rcases hvalue : written.value with _ | ⟨quote, text⟩ <;> simp [hvalue]

theorem isSome_attribute?_map (attributes : List Attribute) (name : String) :
    (attribute? (attributes.map fun written => (written.name, written.value.map Prod.snd))
      name).isSome = attributes.any (·.isNamed name) := by
  rw [attribute?_map, Option.isSome_map, Bool.eq_iff_iff, List.find?_isSome, List.any_eq_true]

/-- A component with what a part is, behind a text. -/
def addPart (component : Component) (before : List Char) (part : Part) : Component :=
  ⟨component.template.or (part.template? before),
    component.scripts ++ (part.script? before).toList⟩

/-- A block is added as the template or the script that it is. -/
theorem addBlock_printed (component : Component) (before : List Char) (block : Block)
    (r s t u : List Char) :
    addBlock component block.name
        (block.attributes.map fun written => (written.name, written.value.map Prod.snd))
        block.content (Cursor.behind before r) (Cursor.behind (before ++ block.startTag) s)
        (Cursor.behind (before ++ block.startTag ++ block.content) t)
        (Cursor.behind (before ++ block.startTag ++ block.content ++ block.endTag) u) =
      component.addPart before (.block block) := by
  rw [addBlock, lang_map, isSome_attribute?_map, isSome_attribute?_map]
  cases block with
  | template attributes content =>
    refine (if_pos (by rfl)).trans ?_
    obtain ⟨_ | template, scripts⟩ := component
    · exact congrArg (Component.mk (some _)) (List.append_nil scripts).symm
    · exact congrArg (Component.mk (some template)) (List.append_nil scripts).symm
  | other name attributes content isName isOther noClosing =>
    have hsame {word : List Char} (hword : asciiLower word = word) :
        sameName name word = true ↔ name = word :=
      (Block.other name attributes content isName isOther noClosing).sameName_iff hword
    refine (if_neg fun h => isOther ((hsame (by decide)).1 h)).trans ?_
    have htemplate : Part.template? before
        (.block (.other name attributes content isName isOther noClosing)) = none := rfl
    rw [addPart, htemplate, Option.or_none]
    by_cases hscript : name = "script".toList
    · have hpart : Part.script? before
          (.block (.other name attributes content isName isOther noClosing)) = some _ :=
        if_pos hscript
      refine (if_pos ((hsame (by decide)).2 hscript)).trans ?_
      rw [hpart]
      rfl
    · have hpart : Part.script? before
          (.block (.other name attributes content isName isOther noClosing)) = none :=
        if_neg hscript
      refine (if_neg fun h => hscript ((hsame (by decide)).1 h)).trans ?_
      rw [hpart, Option.toList_none, List.append_nil]

/-- The start tag of a block starts no comment, and has the name of the block. -/
theorem Block.startTag_cases (block : Block) (rest : List Char) :
    "<!--".toList.isPrefixOf (block.startTag ++ rest) = false ∧
      tagName? ((block.startTag ++ rest).drop 1) = some block.name := by
  refine ⟨?_, ?_⟩
  · obtain ⟨c, name, hname, hc⟩ := block.exists_name
    rw [Bool.eq_false_iff, ne_eq, List.isPrefixOf_iff_prefix, Block.startTag, hname]
    intro hstarts
    obtain ⟨rfl, -⟩ := List.cons_prefix_cons.1 (List.cons_prefix_cons.1 hstarts).2
    exact absurd hc (by decide)
  · have hdrop : (block.startTag ++ rest).drop 1 =
        block.name ++ (attributeChars block.attributes ++ ('>' :: rest)) := by
      simp [Block.startTag]
    rw [hdrop]
    refine block.tagName?_append fun c hc => ?_
    rcases hattributes : attributeChars block.attributes with _ | ⟨d, more⟩
    · rw [hattributes] at hc
      cases hc
      rfl
    · have hblank := (head?_attributeChars block.attributes).1 d (by rw [hattributes]; rfl)
      rw [hattributes] at hc
      cases hc
      simp only [isAsciiBlank, Bool.or_eq_true, beq_iff_eq] at hblank
      rcases hblank with (((rfl | rfl) | rfl) | rfl) | rfl <;> rfl

/-- The end tag of a block goes on to its greater-than sign. -/
theorem Block.splitBefore?_endTag (block : Block) (rest : List Char) :
    splitBefore? ['>'] (block.endTag ++ rest) =
      some ('<' :: '/' :: block.name, '>' :: rest) := by
  have hname : '>' ∉ '<' :: '/' :: block.name := by
    intro hm
    rcases List.mem_cons.1 hm with h | hm
    · exact absurd h (by decide)
    · rcases List.mem_cons.1 hm with h | hm
      · exact absurd h (by decide)
      · exact notMem_of_isBlockChar (block.isName.2 _ hm) (by decide)
  have hend : block.endTag ++ rest = '<' :: '/' :: block.name ++ '>' :: rest := by
    simp [Block.endTag]
  have hsign : ['>'] <+: '>' :: rest := ⟨rest, rfl⟩
  rw [hend, splitBefore?_plain hname, splitBefore?_of_isPrefix hsign, behind_some,
    List.append_nil]

/-- A block is read up to the greater-than sign of its end tag. -/
theorem readBlocks_block (block : Block) (fuel : Nat) (component : Component)
    (before rest : List Char) :
    readBlocks (fuel + 1) component (Cursor.behind before (block.chars ++ rest)) =
      readBlocks fuel (component.addPart before (.block block))
        (Cursor.behind (before ++ block.chars) rest) := by
  have hchars : block.chars ++ rest =
      block.startTag ++ (block.content ++ (block.endTag ++ rest)) := by
    simp only [Block.chars, List.append_assoc]
  have hsign : ['<'] <+: block.startTag ++ (block.content ++ (block.endTag ++ rest)) :=
    ⟨_, rfl⟩
  obtain ⟨hcomment, hname⟩ := block.startTag_cases (block.content ++ (block.endTag ++ rest))
  have hend : '<' :: '/' :: block.name ++ ['>'] = block.endTag := rfl
  have hrest : (Cursor.behind before (block.chars ++ rest)).rest = block.chars ++ rest := rfl
  rw [readBlocks, hrest, hchars, splitBefore?_of_isPrefix hsign]
  dsimp only
  rw [hcomment, hname, block.scanTag_startTag]
  dsimp only
  rw [block.endsWith_startTag, block.splitBlock_content]
  dsimp only
  rw [block.splitBefore?_endTag, block.readAttributes_startTag]
  dsimp only
  rw [hend, Cursor.advance_behind, Cursor.advance_behind, Cursor.advance_behind,
    Cursor.advance_behind, List.append_nil, addBlock_printed]
  simp [Block.chars]

/-- A part is read, and the rest behind it. -/
theorem readBlocks_part (part : Part) (component : Component) (before rest : List Char) {fuel : Nat}
    (hfuel : (part.chars ++ rest).length < fuel) :
    ∃ turns, rest.length < turns ∧
      readBlocks fuel component (Cursor.behind before (part.chars ++ rest)) =
        readBlocks turns (component.addPart before part)
          (Cursor.behind (before ++ part.chars) rest) := by
  rw [List.length_append] at hfuel
  obtain ⟨fuel, rfl⟩ := Nat.exists_eq_add_one_of_ne_zero (Nat.ne_zero_of_lt hfuel)
  have hplain (hpart : part.template? before = none ∧ part.script? before = none) :
      component.addPart before part = component := by
    rw [addPart, hpart.1, hpart.2, Option.or_none, Option.toList_none, List.append_nil]
  cases part with
  | text cs h =>
    refine ⟨fuel + 1, by omega, ?_⟩
    rw [hplain ⟨rfl, rfl⟩, ← Cursor.advance_behind]
    exact readBlocks_text h (fuel + 1) component rfl
  | comment cs opens closes first =>
    refine ⟨fuel, ?_, ?_⟩
    · have hpos : 4 ≤ cs.length := opens.length_le
      change cs.length + rest.length < fuel + 1 at hfuel
      omega
    · rw [hplain ⟨rfl, rfl⟩, ← Cursor.advance_behind]
      exact readBlocks_comment opens closes first fuel component rfl
  | block printed =>
    refine ⟨fuel, ?_, readBlocks_block printed fuel component before rest⟩
    have hpos : 0 < printed.chars.length := Nat.succ_pos _
    change printed.chars.length + rest.length < fuel + 1 at hfuel
    omega

/-- The parts of a component are read one after the other. -/
theorem readBlocks_print (parts : List Part) (component : Component) (before : List Char)
    {fuel : Nat} (hfuel : (print parts).length < fuel) :
    readBlocks fuel component (Cursor.behind before (print parts)) =
      .ok ⟨component.template.or (partsFrom Part.template? before parts).head?,
        component.scripts ++ partsFrom Part.script? before parts⟩ := by
  induction parts generalizing fuel component before with
  | nil =>
    obtain ⟨fuel, rfl⟩ := Nat.exists_eq_add_one_of_ne_zero (Nat.ne_zero_of_lt hfuel)
    rw [partsFrom, partsFrom, List.head?_nil, Option.or_none, List.append_nil]
    rfl
  | cons part parts ih =>
    have hprint : print (part :: parts) = part.chars ++ print parts := List.flatMap_cons
    rw [hprint] at hfuel ⊢
    obtain ⟨turns, hturns, hread⟩ := readBlocks_part part component before (print parts) hfuel
    have hhead (found : Option TemplateBlock) (more : List TemplateBlock) :
        (found.toList ++ more).head? = found.or more.head? := by
      cases found <;> rfl
    rw [hread, ih _ _ hturns, addPart, partsFrom, partsFrom, hhead, Option.or_assoc,
      List.append_assoc]

/-- What a part is, it is behind the parts in front of it. -/
theorem exists_of_mem_partsFrom {α : Type} {f : List Char → Part → Option α}
    {before : List Char} {parts : List Part} {a : α} (h : a ∈ partsFrom f before parts) :
    ∃ front part back, parts = front ++ part :: back ∧ f (before ++ print front) part = some a := by
  induction parts generalizing before with
  | nil => exact absurd h List.not_mem_nil
  | cons part parts ih =>
    rcases List.mem_append.1 h with hpart | hparts
    · exact ⟨[], part, parts, rfl, by rwa [print, List.flatMap_nil, List.append_nil,
        ← Option.mem_toList]⟩
    · obtain ⟨front, found, back, rfl, hfound⟩ := ih hparts
      refine ⟨part :: front, found, back, rfl, ?_⟩
      rw [← hfound, print, List.flatMap_cons, List.append_assoc]
      rfl

/-- The text of a block stands behind its start tag. -/
theorem slice?_print (front back : List Part) (block : Block) :
    slice? (print (front ++ .block block :: back))
        (byteLength (print front ++ block.startTag))
        (byteLength (print front ++ block.startTag) + byteLength block.content) =
      some block.content := by
  have hprint : print (front ++ .block block :: back) =
      print front ++ block.startTag ++ (block.content ++ (block.endTag ++ print back)) := by
    simp only [print, List.flatMap_append, List.flatMap_cons, Part.chars, Block.chars,
      List.append_assoc]
  rw [hprint]
  exact slice?_append _ _ _

/-- Reading undoes printing: the first template and all scripts are found, in their order, each
    with its text, its language and its flag, and with the byte at which its text stands. -/
theorem parse_print (parts : List Part) :
    parse (String.ofList (print parts)) =
        .ok ⟨(partsFrom Part.template? [] parts).head?, partsFrom Part.script? [] parts⟩ ∧
      (∀ template ∈ partsFrom Part.template? [] parts,
        slice? (print parts) template.offset
          (template.offset + byteLength template.content.toList) = some template.content.toList) ∧
      ∀ script ∈ partsFrom Part.script? [] parts,
        slice? (print parts) script.offset
          (script.offset + byteLength script.content.toList) = some script.content.toList := by
  refine ⟨?_, fun template htemplate => ?_, fun script hscript => ?_⟩
  · rw [parse, String.toList_ofList]
    exact readBlocks_print parts ⟨none, []⟩ [] (Nat.lt_succ_self _)
  · obtain ⟨front, part, back, rfl, hpart⟩ := exists_of_mem_partsFrom htemplate
    rw [List.nil_append] at hpart
    cases part with
    | text => cases hpart
    | comment => cases hpart
    | block block =>
      cases block with
      | template attributes content =>
        cases hpart
        rw [String.toList_ofList]
        exact slice?_print front back _
      | other => cases hpart
  · obtain ⟨front, part, back, rfl, hpart⟩ := exists_of_mem_partsFrom hscript
    rw [List.nil_append] at hpart
    cases part with
    | text => cases hpart
    | comment => cases hpart
    | block block =>
      cases block with
      | template => cases hpart
      | other name attributes content isName isOther noClosing =>
        rw [Part.script?] at hpart
        split at hpart
        · cases hpart
          rw [String.toList_ofList]
          exact slice?_print front back (.other name attributes content isName isOther noClosing)
        · cases hpart

end Component

end PugLint
