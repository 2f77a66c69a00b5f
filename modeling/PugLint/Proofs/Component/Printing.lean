import PugLint.Proofs.Component
import PugLint.Proofs.Token.Scanning

/-!
# Printed components

A component file as it is printed: blocks with their tags, and texts and comments between them.
Start tags and their attributes are read back as they were printed, whatever stands in the
values.

* `Component.Attribute`, `Component.Content`, `Component.Block`, `Component.Part`: what is
  printed; only what the text tells apart can be built;
* `Component.Part.template?`, `Component.Part.script?`: what should be read of a part;
* `Component.scanTag_start`, `Component.readsAttributes_attributeChars`: start tags and their
  attributes.
-/

namespace PugLint

namespace Component

/-! ### What is printed -/

/-- An attribute: the blanks in front of it, its name and, with the quote around it, its
    value. -/
structure Attribute where
  /-- The blanks in front. -/
  blanks : List Char
  /-- The name. -/
  name : List Char
  /-- The quote and the value in it. -/
  value : Option (Char × List Char)
  blanks_ne : blanks ≠ []
  isBlank : ∀ c ∈ blanks, Text.isAsciiBlank c = true
  name_ne : name ≠ []
  isName : ∀ c ∈ name, Text.isAsciiBlank c = false ∧ c ∉ ['"', '\'', '=', '/', '<', '>']
  isValue : ∀ quote text, value = some (quote, text) → quote ∈ ['"', '\''] ∧ quote ∉ text

namespace Attribute

/-- The name and the value as they are printed. -/
def body (written : Attribute) : List Char :=
  written.name ++
    match written.value with
    | none => []
    | some (quote, text) => '=' :: quote :: (text ++ [quote])

/-- An attribute as it is printed. -/
def chars (written : Attribute) : List Char :=
  written.blanks ++ written.body

/-- Whether an attribute has a name, up to the case of ASCII letters. -/
def isNamed (name : String) (written : Attribute) : Bool :=
  sameName written.name name.toList

end Attribute

/-- Attributes as they are printed. -/
def attributeChars (attributes : List Attribute) : List Char :=
  attributes.flatMap Attribute.chars

theorem attributeChars_cons (written : Attribute) (attributes : List Attribute) :
    attributeChars (written :: attributes) =
      written.blanks ++ (written.body ++ attributeChars attributes) := by
  rw [attributeChars, List.flatMap_cons, Attribute.chars, List.append_assoc]
  rfl

/-- The value of the first `lang` attribute. -/
def langOf (attributes : List Attribute) : Option String :=
  (attributes.find? (·.isNamed "lang")).bind fun written =>
    written.value.map fun (_, text) => String.ofList text

/-- The text between the tags of a template: plain text, and templates in it. -/
inductive Content where
  /-- A text without the tags of a template. -/
  | text (cs : List Char) (noOpening : ¬"<template".toList <:+: cs)
      (noClosing : ¬"</template".toList <:+: cs)
  /-- A template between two texts. -/
  | nested (before : Content) (attributes : List Attribute) (inner behind : Content)
  /-- A template that closes itself between two texts. -/
  | selfClosing (before : Content) (attributes : List Attribute) (behind : Content)

/-- The text of a template as it is printed. -/
def Content.chars : Content → List Char
  | .text cs _ _ => cs
  | .nested before attributes inner behind =>
    before.chars ++ ("<template".toList ++ attributeChars attributes ++ ['>'] ++
      (inner.chars ++ ("</template>".toList ++ behind.chars)))
  | .selfClosing before attributes behind =>
    before.chars ++ ("<template".toList ++ attributeChars attributes ++ ['/', '>'] ++
      behind.chars)

/-- The characters of the names of blocks. -/
def isBlockChar (c : Char) : Bool :=
  c.isLower || c.isDigit || c == '-'

/-- A top-level block: a template, or a block of another name whose end tag does not stand
    in it. -/
inductive Block where
  /-- A template. -/
  | template (attributes : List Attribute) (content : Content)
  /-- A block of another name. -/
  | other (name : List Char) (attributes : List Attribute) (content : List Char)
      (isName : name.head?.any Char.isLower = true ∧ ∀ c ∈ name, isBlockChar c = true)
      (isOther : name ≠ "template".toList)
      (noClosing : ¬('<' :: '/' :: name) <:+: content)

namespace Block

/-- The name of a block. -/
def name : Block → List Char
  | .template _ _ => "template".toList
  | .other name _ _ _ _ _ => name

/-- The attributes of a block. -/
def attributes : Block → List Attribute
  | .template attributes _ => attributes
  | .other _ attributes _ _ _ _ => attributes

/-- The text between the tags of a block. -/
def content : Block → List Char
  | .template _ content => content.chars
  | .other _ _ content _ _ _ => content

/-- The start tag of a block. -/
def startTag (block : Block) : List Char :=
  '<' :: (block.name ++ attributeChars block.attributes ++ ['>'])

/-- The end tag of a block. -/
def endTag (block : Block) : List Char :=
  '<' :: '/' :: (block.name ++ ['>'])

/-- A block as it is printed. -/
def chars (block : Block) : List Char :=
  block.startTag ++ (block.content ++ block.endTag)

end Block

/-- A part of a component file. -/
inductive Part where
  /-- A text without a less-than sign. -/
  | text (cs : List Char) (h : '<' ∉ cs)
  /-- A comment, which goes on to the first of its ends. -/
  | comment (cs : List Char) (opens : "<!--".toList <+: cs) (closes : "-->".toList <:+ cs)
      (first : ¬"-->".toList <:+: cs.dropLast)
  /-- A block. -/
  | block (block : Block)

/-- A part as it is printed. -/
def Part.chars : Part → List Char
  | .text cs _ => cs
  | .comment cs _ _ _ => cs
  | .block printed => printed.chars

/-- A component file as it is printed. -/
def print (parts : List Part) : List Char :=
  parts.flatMap Part.chars

/-! ### What is read -/

/-- The template block that a part is, behind a text. -/
def Part.template? (before : List Char) : Part → Option TemplateBlock
  | .block (.template attributes content) =>
    let block := Block.template attributes content
    let inner := before ++ block.startTag
    let closing := inner ++ block.content
    some
      { content := String.ofList block.content
        offset := Text.byteLength inner
        line := 1 + inner.count '\n'
        hasSource := attributes.any (·.isNamed "src")
        lang := langOf attributes
        startTag := (Text.byteLength before, Text.byteLength inner)
        endTag := (Text.byteLength closing, Text.byteLength (closing ++ block.endTag)) }
  | _ => none

/-- The script block that a part is, behind a text. -/
def Part.script? (before : List Char) : Part → Option ScriptBlock
  | .block (.other name attributes content isName isOther noClosing) =>
    let block := Block.other name attributes content isName isOther noClosing
    if name = "script".toList then
      some
        { content := String.ofList content
          offset := Text.byteLength (before ++ block.startTag)
          setup := attributes.any (·.isNamed "setup")
          lang := langOf attributes }
    else none
  | _ => none

/-- What the parts behind a text are, each one behind all that is printed in front of it. -/
def partsFrom {α : Type} (f : List Char → Part → Option α) (before : List Char) :
    List Part → List α
  | [] => []
  | part :: parts => (f before part).toList ++ partsFrom f (before ++ part.chars) parts

/-! ### Tags -/

open Text

/-- A start tag goes on over characters other than quotes and a greater-than sign. -/
theorem scanTag_plain {cs : List Char} (h : ∀ c ∈ cs, c ∉ ['"', '\'', '>']) (rest : List Char) :
    scanTag none (cs ++ rest) = behind cs (scanTag none rest) := by
  induction cs with
  | nil => simp
  | cons c cs ih =>
    obtain ⟨hc, hcs⟩ := List.forall_mem_cons.1 h
    simp only [List.mem_cons, List.not_mem_nil, or_false, not_or] at hc
    rw [List.cons_append, scanTag]
    simp only [hc, beq_iff_eq, Bool.or_eq_true, or_self, if_false]
    rw [ih hcs]
    exact behind_behind [c] cs _

/-- A start tag goes on over a value up to its quote. -/
theorem scanTag_quoted {quote : Char} {cs : List Char} (h : quote ∉ cs) (rest : List Char) :
    scanTag (some quote) (cs ++ quote :: rest) = behind (cs ++ [quote]) (scanTag none rest) := by
  induction cs with
  | nil =>
    rw [List.nil_append, scanTag]
    simp only [beq_self_eq_true, if_true]
    rfl
  | cons c cs ih =>
    have hc : (c == quote) = false := beq_false_of_ne (List.ne_of_not_mem_cons h).symm
    rw [List.cons_append, scanTag]
    simp only [hc, Bool.false_eq_true, if_false]
    rw [ih (List.not_mem_of_not_mem_cons h)]
    exact behind_behind [c] (cs ++ [quote]) _

theorem scanTag_attribute (written : Attribute) (rest : List Char) :
    scanTag none (written.chars ++ rest) = behind written.chars (scanTag none rest) := by
  have hfront : ∀ c ∈ written.blanks ++ written.name, c ∉ ['"', '\'', '>'] := by
    intro c hc hmem
    rcases List.mem_append.1 hc with hc | hc
    · have hblank := written.isBlank c hc
      simp only [List.mem_cons, List.not_mem_nil, or_false] at hmem
      rcases hmem with rfl | rfl | rfl <;> exact absurd hblank (by decide)
    · refine (written.isName c hc).2 ?_
      simp only [List.mem_cons, List.not_mem_nil, or_false] at hmem ⊢
      tauto
  rw [Attribute.chars, Attribute.body, ← List.append_assoc]
  cases hvalue : written.value with
  | none =>
    rw [List.append_nil]
    exact scanTag_plain hfront rest
  | some value =>
    obtain ⟨quote, text⟩ := value
    obtain ⟨hquote, htext⟩ := written.isValue quote text hvalue
    have hopens (rest : List Char) :
        scanTag none ('=' :: quote :: rest) = behind ['=', quote] (scanTag (some quote) rest) := by
      simp only [List.mem_cons, List.not_mem_nil, or_false] at hquote
      rcases hquote with rfl | rfl <;> exact behind_behind ['='] [_] _
    rw [List.append_assoc, scanTag_plain hfront]
    dsimp only [List.cons_append]
    rw [hopens, List.append_assoc, List.singleton_append, scanTag_quoted htext, behind_behind,
      behind_behind, List.append_assoc (written.blanks ++ written.name)]
    rfl

theorem scanTag_attributes (attributes : List Attribute) (rest : List Char) :
    scanTag none (attributeChars attributes ++ rest) =
      behind (attributeChars attributes) (scanTag none rest) := by
  induction attributes with
  | nil => simp [attributeChars]
  | cons written attributes ih =>
    have hcons : attributeChars (written :: attributes) =
      written.chars ++ attributeChars attributes := List.flatMap_cons
    rw [hcons, List.append_assoc, scanTag_attribute, ih, behind_behind]

/-- A start tag up to its greater-than sign. -/
theorem scanTag_start {front : List Char} (hfront : ∀ c ∈ front, c ∉ ['"', '\'', '>'])
    (attributes : List Attribute) {ending : List Char}
    (hending : ending = ['>'] ∨ ending = ['/', '>']) (rest : List Char) :
    scanTag none (front ++ attributeChars attributes ++ ending ++ rest) =
      some (front ++ attributeChars attributes ++ ending, rest) := by
  have hends : scanTag none (ending ++ rest) = some (ending, rest) := by
    rcases hending with rfl | rfl <;> rfl
  rw [List.append_assoc, List.append_assoc, scanTag_plain hfront, scanTag_attributes, hends,
    behind_some, behind_some, List.append_assoc]

/-! ### Attributes -/

/-- Blanks in front of attributes are passed over. -/
theorem readAttributes_blanks {blanks : List Char}
    (h : ∀ c ∈ blanks, isAsciiBlank c = true) (fuel : Nat) (cs : List Char) :
    readAttributes (blanks.length + fuel) (blanks ++ cs) = readAttributes fuel cs := by
  induction blanks with
  | nil => rw [List.length_nil, Nat.zero_add, List.nil_append]
  | cons c blanks ih =>
    obtain ⟨hc, hblanks⟩ := List.forall_mem_cons.1 h
    rw [List.length_cons, Nat.succ_add, List.cons_append, readAttributes, if_pos (by simp [hc]),
      ih hblanks]

/-- What is read of a text, however many steps there are beyond its length. -/
def ReadsAttributes (cs : List Char) (found : List (List Char × Option (List Char))) : Prop :=
  ∀ fuel, cs.length ≤ fuel → readAttributes fuel cs = found

theorem readsAttributes_nil : ReadsAttributes [] [] := by
  intro fuel _
  cases fuel <;> rfl

theorem ReadsAttributes.skip {blanks cs : List Char}
    {found : List (List Char × Option (List Char))} (h : ∀ c ∈ blanks, isAsciiBlank c = true) :
    ReadsAttributes (blanks ++ cs) found ↔ ReadsAttributes cs found := by
  constructor
  · intro hread fuel hfuel
    rw [← readAttributes_blanks h fuel cs]
    exact hread _ (by rw [List.length_append]; omega)
  · intro hread fuel hfuel
    rw [List.length_append] at hfuel
    obtain ⟨more, rfl⟩ := Nat.exists_eq_add_of_le (Nat.le_trans (Nat.le_add_right _ _) hfuel)
    rw [readAttributes_blanks h]
    exact hread more (by omega)

/-- The characters of the names of attributes. -/
def isNameChar (c : Char) : Bool :=
  !isAsciiBlank c && c != '=' && c != '/'

/-- The name of an attribute is taken whole. -/
theorem readAttributes_name {name rest : List Char} (hne : name ≠ [])
    (hname : ∀ c ∈ name, isNameChar c = true) (hrest : ∀ c ∈ rest.head?, isNameChar c = false)
    (fuel : Nat) :
    readAttributes (fuel + 1) (name ++ rest) =
      match rest.dropWhile isAsciiBlank with
      | '=' :: rest =>
        match rest.dropWhile isAsciiBlank with
        | q :: rest =>
          if q == '"' || q == '\'' then
            (name, some (rest.takeWhile (· != q))) ::
              readAttributes fuel ((rest.dropWhile (· != q)).drop 1)
          else
            (name, some ((q :: rest).takeWhile (!isAsciiBlank ·))) ::
              readAttributes fuel ((q :: rest).dropWhile (!isAsciiBlank ·))
        | [] => [(name, some [])]
      | rest => (name, none) :: readAttributes fuel rest := by
  obtain ⟨c, cs, rfl⟩ := List.exists_cons_of_ne_nil hne
  have hc := hname c List.mem_cons_self
  obtain ⟨htake, hdrop⟩ := Lexer.takeWhile_append_stop hname hrest
  have hstarts : ¬(isAsciiBlank c || c == '/') = true := by
    simp only [isNameChar, Bool.and_eq_true, Bool.not_eq_true', bne_iff_ne] at hc
    simp [hc]
  rw [List.cons_append] at htake hdrop ⊢
  rw [readAttributes, if_neg hstarts]
  dsimp only
  unfold isNameChar at htake hdrop
  rw [htake, hdrop]
  rfl

/-- An attribute without a value. -/
theorem readAttributes_bare {name rest : List Char} (hne : name ≠ [])
    (hname : ∀ c ∈ name, isNameChar c = true) (hrest : ∀ c ∈ rest.head?, isAsciiBlank c = true)
    (hsign : (rest.dropWhile isAsciiBlank).head? ≠ some '=') (fuel : Nat) :
    readAttributes (fuel + 1) (name ++ rest) =
      (name, none) :: readAttributes fuel (rest.dropWhile isAsciiBlank) := by
  rw [readAttributes_name hne hname fun c hc => by simp [isNameChar, hrest c hc]]
  split
  · rename_i hequals
    exact absurd (by rw [hequals]; rfl) hsign
  · rfl

/-- An attribute with its value in quotes. -/
theorem readAttributes_quoted {name text : List Char} {quote : Char} (hne : name ≠ [])
    (hname : ∀ c ∈ name, isNameChar c = true) (hquote : quote ∈ ['"', '\''])
    (htext : quote ∉ text) (rest : List Char) (fuel : Nat) :
    readAttributes (fuel + 1) (name ++ ('=' :: quote :: (text ++ [quote]) ++ rest)) =
      (name, some text) :: readAttributes fuel rest := by
  have hstop : ∀ c ∈ (quote :: rest).head?, (c != quote) = false := by
    rintro c ⟨⟩
    exact bne_self_eq_false _
  have hinside : ∀ c ∈ text, (c != quote) = true := fun c hc =>
    bne_iff_ne.2 fun heq => htext (heq ▸ hc)
  obtain ⟨htake, hdrop⟩ := Lexer.takeWhile_append_stop hinside hstop
  have hq : (quote == '"' || quote == '\'') = true ∧ ¬isAsciiBlank quote = true := by
    simp only [List.mem_cons, List.not_mem_nil, or_false] at hquote
    rcases hquote with rfl | rfl <;> decide
  rw [readAttributes_name hne hname (by rintro c ⟨⟩; rfl), List.cons_append, List.cons_append,
    List.append_assoc, List.singleton_append, List.dropWhile_cons_of_neg (by decide)]
  split
  · rename_i hequals
    cases hequals
    rw [List.dropWhile_cons_of_neg hq.2]
    dsimp only
    rw [if_pos hq.1, htake, hdrop]
    rfl
  · rename_i hnot
    exact absurd rfl (hnot _)

theorem Attribute.isNameChar_of_mem (written : Attribute) :
    ∀ c ∈ written.name, isNameChar c = true := by
  intro c hc
  obtain ⟨hblank, hnot⟩ := written.isName c hc
  simp only [List.mem_cons, List.not_mem_nil, or_false, not_or] at hnot
  simp [isNameChar, hblank, hnot]

theorem Attribute.exists_body (written : Attribute) :
    ∃ c more, written.body = c :: more ∧ isNameChar c = true := by
  obtain ⟨c, name, hname⟩ := List.exists_cons_of_ne_nil written.name_ne
  have hbody : written.body = c :: (name ++ match written.value with
      | none => []
      | some (quote, text) => '=' :: quote :: (text ++ [quote])) := by
    rw [Attribute.body, hname, List.cons_append]
  exact ⟨c, _, hbody, written.isNameChar_of_mem c (hname ▸ List.mem_cons_self)⟩

/-- Behind an attribute comes a blank, and no sign comes behind that. -/
theorem head?_attributeChars (attributes : List Attribute) :
    (∀ c ∈ (attributeChars attributes).head?, isAsciiBlank c = true) ∧
      ((attributeChars attributes).dropWhile isAsciiBlank).head? ≠ some '=' := by
  rcases attributes with _ | ⟨written, attributes⟩
  · exact ⟨nofun, nofun⟩
  · obtain ⟨c, blanks, hblanks⟩ := List.exists_cons_of_ne_nil written.blanks_ne
    obtain ⟨d, more, hbody, hd⟩ := written.exists_body
    rw [attributeChars_cons]
    refine ⟨?_, ?_⟩
    · rw [hblanks]
      rintro e ⟨⟩
      exact written.isBlank c (hblanks ▸ List.mem_cons_self)
    · have hnot : ¬isAsciiBlank d = true := by
        intro hblank
        simp [isNameChar, hblank] at hd
      rw [List.dropWhile_append_of_pos written.isBlank, hbody, List.cons_append,
        List.dropWhile_cons_of_neg hnot]
      rintro ⟨⟩
      exact absurd hd (by decide)

/-- The attributes of a start tag are read as they are printed. -/
theorem readsAttributes_attributeChars (attributes : List Attribute) :
    ReadsAttributes (attributeChars attributes)
      (attributes.map fun written => (written.name, written.value.map Prod.snd)) := by
  induction attributes with
  | nil => exact readsAttributes_nil
  | cons written attributes ih =>
    obtain ⟨hhead, hsign⟩ := head?_attributeChars attributes
    rw [attributeChars_cons, ReadsAttributes.skip written.isBlank]
    intro fuel hfuel
    obtain ⟨d, more, hbody, -⟩ := written.exists_body
    obtain ⟨fuel, rfl⟩ : ∃ turns, fuel = turns + 1 := by
      rw [hbody] at hfuel
      exact ⟨fuel - 1, by simp at hfuel; omega⟩
    rw [List.map_cons]
    have hlength : (attributeChars attributes).length ≤ fuel := by
      rw [hbody] at hfuel
      simp at hfuel
      omega
    cases hvalue : written.value with
    | none =>
      have hbare : written.body = written.name := by
        rw [Attribute.body, hvalue, List.append_nil]
      rw [hbare, readAttributes_bare written.name_ne written.isNameChar_of_mem hhead hsign]
      have hskip := List.takeWhile_append_dropWhile (p := isAsciiBlank)
        (l := attributeChars attributes)
      rw [← hskip, ReadsAttributes.skip fun c hc => List.mem_takeWhile_imp hc] at ih
      rw [ih fuel (Nat.le_trans (List.dropWhile_suffix _).length_le hlength)]
      rfl
    | some value =>
      obtain ⟨quote, text⟩ := value
      obtain ⟨hquote, htext⟩ := written.isValue quote text hvalue
      have hvalued : written.body = written.name ++ ('=' :: quote :: (text ++ [quote])) := by
        rw [Attribute.body, hvalue]
      rw [hvalued, List.append_assoc, readAttributes_quoted written.name_ne
        written.isNameChar_of_mem hquote htext, ih fuel hlength]
      rfl

end Component

end PugLint
