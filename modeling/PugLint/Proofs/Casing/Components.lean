import PugLint.Proofs.Linter.Fixes

/-!
# Components in another case

A component is known by its name in PascalCase, and an element may be written in any case that leads
to that name. If the name of an element is changed to PascalCase or to kebab-case, it still leads to
the same component: a conversion to kebab-case puts a dash in front of each word but the first, and
from these dashes PascalCase takes the words back.

* `Casing.joinHumps_splitHumps`: the words that are split are joined again;
* `Casing.toPascal_toKebab`: a name in PascalCase, by way of kebab-case;
* `recognized_of_tokenize`: the component of an element whose name is changed.
-/

namespace PugLint

open Lexer (isTagChar)

namespace Casing

/-! ### Letters -/

/-- A letter or digit is part of a word, in either case. -/
theorem of_isAlphanum {c : Char} (h : c.isAlphanum = true) :
    c.toNat < 128 ∧ isMark c = false ∧ isHumpBase c = true ∧ c.toLower.isAlphanum = true ∧
      (c.isUpper = true → c.isLower = false) := by
  have hlt : c.toNat < 128 := lt_of_isTagChar (by simp [isTagChar, h])
  have hall : c.isAlphanum = true → isMark c = false ∧ isHumpBase c = true ∧
      c.toLower.isAlphanum = true ∧ (c.isUpper = true → c.isLower = false) :=
    Text.of_ascii hlt (by decide +kernel)
  exact ⟨hlt, hall h⟩

theorem beq_underscore_of_isAlphanum {c : Char} (h : c.isAlphanum = true) :
    (c == '_') = false := by
  rw [beq_eq_false_iff_ne]
  rintro rfl
  cases h

theorem lowercase_of_tagChars {s : List Char} (h : ∀ c ∈ s, isTagChar c = true) :
    Text.lowercase s = s.map Char.toLower := by
  suffices hfrom : ∀ before, Text.lowercaseFrom before s = s.map Char.toLower from hfrom []
  induction s with
  | nil => exact fun _ => rfl
  | cons c s ih =>
    intro before
    obtain ⟨hc, hs⟩ := List.forall_mem_cons.1 h
    have hlt := lt_of_isTagChar hc
    have hsigma : (c == 'Σ') = false := by
      rw [beq_eq_false_iff_ne]
      rintro rfl
      exact absurd hlt (by decide)
    rw [Text.lowercaseFrom, hsigma, if_neg Bool.false_ne_true, Text.toLower_ascii hlt, ih hs,
      List.map_cons, List.singleton_append]

/-! ### Humps -/

theorem joinHumps_dash {c : Char} (h : c.isAlphanum = true) (s : List Char) :
    joinHumps ('-' :: c :: s) = c.toUpper :: joinHumps s := by
  obtain ⟨hlt, -, hbase, -, -⟩ := of_isAlphanum h
  rw [joinHumps, if_pos (by rw [hbase]; rfl), Text.toUpper_ascii hlt, List.singleton_append]

/-- The words of a name behind a letter or digit, split by dashes and in lower case. -/
def wordsBehind (previous : Char) (s : List Char) : List Char :=
  (splitHumps '-' (some previous) (replaceChar '_' '-' s)).map Char.toLower

/-- A letter or digit behind another one is joined to it again, with its case. -/
theorem joinHumps_wordsBehind_cons {previous c : Char} (hprevious : previous.isAlphanum = true)
    (hc : c.isAlphanum = true) (s : List Char) :
    joinHumps (wordsBehind previous (c :: s)) = c :: joinHumps (wordsBehind c s) := by
  obtain ⟨hlt, hmark, -, hlower, hcapitals⟩ := of_isAlphanum hc
  obtain ⟨-, hcase, hupper, hkeep⟩ := toLower_of_lt hlt
  have hreplace : replaceChar '_' '-' (c :: s) = c :: replaceChar '_' '-' s := by
    rw [replaceChar, List.map_cons, beq_underscore_of_isAlphanum hc]
    rfl
  have hhump : (some previous).any isHumpBase = true := (of_isAlphanum hprevious).2.2.1
  rw [wordsBehind, hreplace, splitHumps, hhump, Bool.and_true]
  cases hcapital : c.isUpper with
  | true =>
    rw [if_pos rfl, List.map_cons, List.map_cons]
    change joinHumps ('-' :: c.toLower :: wordsBehind c s) = _
    rw [joinHumps_dash hlower, hcase, hupper (hcapitals hcapital)]
  | false =>
    rw [if_neg Bool.false_ne_true, List.map_cons, hkeep hcapital]
    exact joinHumps_cons hmark _

/-- A dash or underscore stays in front of its word. -/
theorem joinHumps_wordsBehind_mark {previous mark c : Char} (hmark : isMark mark = true)
    (hc : c.isAlphanum = true) (s : List Char) :
    joinHumps (wordsBehind previous (mark :: c :: s)) =
      c.toUpper :: joinHumps (wordsBehind c s) := by
  obtain ⟨hlt, -, -, hlower, -⟩ := of_isAlphanum hc
  obtain ⟨-, hcase, -, -⟩ := toLower_of_lt hlt
  have hreplace : replaceChar '_' '-' (mark :: c :: s) = '-' :: c :: replaceChar '_' '-' s := by
    simp only [isMark, Bool.or_eq_true, beq_iff_eq] at hmark
    simp only [replaceChar, List.map_cons, beq_underscore_of_isAlphanum hc,
      Bool.false_eq_true, if_false]
    rcases hmark with rfl | rfl <;> rfl
  have hdash : Char.isUpper '-' = false := rfl
  have hbehind : (some '-').any isHumpBase = false := rfl
  rw [wordsBehind, hreplace, splitHumps, splitHumps, hdash, hbehind, Bool.false_and, Bool.and_false]
  change joinHumps ('-' :: c.toLower :: wordsBehind c s) = _
  rw [joinHumps_dash hlower, hcase]

/-- The words of a name that are split are joined again. -/
theorem joinHumps_splitHumps {s : List Char} (h : ∀ c ∈ joinHumps s, c.isAlphanum = true)
    {previous : Char} (hprevious : previous.isAlphanum = true) :
    joinHumps (wordsBehind previous s) = joinHumps s := by
  fun_induction joinHumps s generalizing previous with
  | case1 mark c s hhump ih =>
    obtain ⟨hmark, hbase⟩ := Bool.and_eq_true_iff.1 hhump
    obtain ⟨hhead, htail⟩ := List.forall_mem_append.1 h
    have hc : c.isAlphanum = true := by
      -- An underscore would be left over.
      rcases Bool.or_eq_true_iff.1 hbase with hc | hc
      · exact hc
      · obtain rfl := LawfulBEq.eq_of_beq hc
        exact absurd (hhead '_' List.mem_cons_self) (by decide)
    rw [joinHumps_wordsBehind_mark hmark hc, ih htail hc,
      Text.toUpper_ascii (of_isAlphanum hc).1, List.singleton_append]
  | case2 c d s _ ih =>
    obtain ⟨hc, htail⟩ := List.forall_mem_cons.1 h
    rw [joinHumps_wordsBehind_cons hprevious hc, ih htail hc]
  | case3 s hshort =>
    cases s with
    | nil => rfl
    | cons c s =>
      cases s with
      | nil =>
        rw [joinHumps_wordsBehind_cons hprevious (h c List.mem_cons_self)]
        rfl
      | cons d s => exact absurd rfl (hshort c d s)

/-! ### Names -/

/-- PascalCase joins the words of a name and has its first letter in upper case. -/
theorem toPascal_eq {s : List Char} (h : ∀ c ∈ s, isTagChar c = true) :
    toPascal s = Text.capitalize (joinHumps s) := by
  rw [toPascal, toCamel]
  split
  · rename_i hpascal
    rw [joinHumps_of_not_isMark (not_isMark_of_isPascal hpascal)]
    cases s with
    | nil => rfl
    | cons c s =>
      have hlt := lt_of_isTagChar (h c List.mem_cons_self)
      obtain ⟨hlowerlt, hcase, -, -⟩ := toLower_of_lt hlt
      rw [Text.uncapitalize, Text.toLower_ascii hlt, List.singleton_append, Text.capitalize,
        Text.toUpper_ascii hlowerlt, hcase, Text.capitalize, Text.toUpper_ascii hlt]
  · rfl

theorem mem_capitalize {s : List Char} {c : Char} (h : c ∈ s) (hlt : c.toNat < 128)
    (hupper : c.toUpper = c) : c ∈ Text.capitalize s := by
  cases s with
  | nil => exact absurd h List.not_mem_nil
  | cons d s =>
    rw [Text.capitalize]
    rcases List.mem_cons.1 h with rfl | h
    · rw [Text.toUpper_ascii hlt, hupper]
      exact List.mem_cons_self
    · exact List.mem_append_right _ h

/-- The words of a name in PascalCase have letters and digits alone. -/
theorem isAlphanum_of_isPascal {s : List Char} (h : ∀ c ∈ s, isTagChar c = true)
    (hpascal : isPascal (toPascal s) = true) : ∀ c ∈ joinHumps s, c.isAlphanum = true := by
  rw [toPascal_eq h] at hpascal
  have hmarks := not_isMark_of_isPascal hpascal
  simp only [isPascal, Bool.not_eq_true', Bool.or_eq_false_iff, List.any_eq_false] at hpascal
  intro c hc
  have htag := (respells_joinHumps s).tagChar h c hc
  have hmem (hupper : c.toUpper = c) : c ∈ Text.capitalize (joinHumps s) :=
    mem_capitalize hc (lt_of_isTagChar htag) hupper
  simp only [isTagChar, Bool.or_eq_true, beq_iff_eq] at htag
  rcases htag with ((htag | rfl) | rfl) | rfl
  · exact htag
  · cases hmarks '_' (hmem rfl)
  · cases hmarks '-' (hmem rfl)
  · exact absurd (by decide) (hpascal.1.1.1.1 ':' (hmem rfl))

/-- A name whose conversion passes the check has the same words in kebab-case. -/
theorem toPascal_toKebab {s : List Char} (h : ∀ c ∈ s, isTagChar c = true)
    (hpascal : isPascal (toPascal s) = true) (hkebab : isKebab (toKebab s) = true) :
    toPascal (toKebab s) = toPascal s := by
  have halphanum := isAlphanum_of_isPascal h hpascal
  have hsplit : ∀ c ∈ splitHumps '-' none (replaceChar '_' '-' s), isTagChar c = true :=
    ((respells_replaceChar rfl rfl s).trans (respells_splitHumps rfl none _)).tagChar h
  have hlower : toKebab s = (splitHumps '-' none (replaceChar '_' '-' s)).map Char.toLower :=
    lowercase_of_tagChars hsplit
  have hchars : ∀ c ∈ toKebab s, isTagChar c = true :=
    (respells_lowercaseFrom [] _).tagChar hsplit
  rw [toPascal_eq h, toPascal_eq hchars, hlower]
  cases s with
  | nil => rfl
  | cons c s =>
    cases hmark : isMark c with
    | true =>
      -- A name that starts with a mark starts with a dash in kebab-case.
      have hhead : (toKebab (c :: s)).head? = some '-' := by
        rw [hlower, replaceChar, List.map_cons]
        simp only [isMark, Bool.or_eq_true, beq_iff_eq] at hmark
        rcases hmark with rfl | rfl <;> rfl
      rw [isKebab, hhead] at hkebab
      simp at hkebab
    | false =>
      rw [joinHumps_cons hmark] at halphanum ⊢
      obtain ⟨hc, hs⟩ := List.forall_mem_cons.1 halphanum
      obtain ⟨hlt, -, -, hlower', -⟩ := of_isAlphanum hc
      obtain ⟨hlowerlt, hcase, -, -⟩ := toLower_of_lt hlt
      have hwords : (splitHumps '-' none (replaceChar '_' '-' (c :: s))).map Char.toLower =
          c.toLower :: wordsBehind c s := by
        rw [replaceChar, List.map_cons, beq_underscore_of_isAlphanum hc, if_neg Bool.false_ne_true,
          splitHumps, Option.any_none, Bool.and_false]
        rfl
      rw [hwords, joinHumps_cons (of_isAlphanum hlower').2.1, joinHumps_splitHumps hs hc,
        Text.capitalize, Text.capitalize, Text.toUpper_ascii hlowerlt, Text.toUpper_ascii hlt,
        hcase]

/-- A name in PascalCase stays as it is. -/
theorem toPascal_of_isPascal {s : List Char} (h : ∀ c ∈ s, isTagChar c = true)
    (hpascal : isPascal s = true) : toPascal s = s := by
  rw [toPascal_eq h, joinHumps_of_not_isMark (not_isMark_of_isPascal hpascal)]
  cases s with
  | nil => rfl
  | cons c s =>
    have hlt := lt_of_isTagChar (h c List.mem_cons_self)
    have hlower : c.isLower = false := by
      simp only [isPascal, Bool.not_eq_true', Bool.or_eq_false_iff] at hpascal
      exact hpascal.1.1.1.2
    rw [Text.capitalize, Text.toUpper_ascii hlt, (toLower_of_lt hlt).2.2.1 hlower]
    rfl

end Casing

/-! ### Components -/

/-- The name of an element still leads to its component when it is changed to PascalCase or to
    kebab-case. -/
theorem CaseStyle.recognized_convertExact {name component : String}
    (h : ∀ c ∈ name.toList, isTagChar c = true) (hcomponent : pascal.check component = true)
    (hname : component = name ∨ component = pascal.convert name) {style : CaseStyle}
    (hstyle : style = .pascal ∨ style = .kebab) :
    component = style.convertExact name ∨
      component = pascal.convert (style.convertExact name) := by
  -- The component has the name of the element in PascalCase.
  obtain rfl : component = pascal.convert name := by
    rcases hname with rfl | hname
    · rw [convert, Casing.toPascal_of_isPascal h hcomponent, String.ofList_toList]
    · exact hname
  rw [convertExact]
  split
  · rename_i hcheck
    rcases hstyle with rfl | rfl
    · exact .inl rfl
    · refine .inr ?_
      simp only [check, convert, String.toList_ofList] at hcomponent hcheck ⊢
      rw [Casing.toPascal_toKebab h hcomponent hcheck]
  · exact .inr rfl

/-- The names of tags in a template are made of the characters of tag names. -/
theorem isTagChar_of_tokenize {template : String} {tokens : List Token}
    (h : tokenize template = .ok tokens) {token : Token} (htoken : token ∈ tokens) {name : String}
    (hname : token.kind = .tag name) : ∀ c ∈ name.toList, isTagChar c = true := by
  obtain ⟨pieces, hpath, -, rfl⟩ := exists_path_tokenize h
  obtain ⟨front, piece, back, rfl, hpiece⟩ := Lexer.exists_piece_of_mem_tokensFrom htoken
  obtain ⟨kind, hkind, rfl⟩ := List.mem_map.1 hpiece
  obtain rfl : kind = .tag name := hname
  obtain ⟨s, -, hback⟩ := hpath.exists_append
  cases hback with
  | cons hmove _ =>
    obtain ⟨-, -, -, -, -, htag⟩ := hmove.tag_cases hkind
    exact htag.chars

/-- An element that is written for a component is written for it still, when its name is changed to
    PascalCase or to kebab-case. -/
theorem recognized_of_tokenize {template : String} {tokens : List Token}
    (h : tokenize template = .ok tokens) {token : Token} (htoken : token ∈ tokens)
    {name component : String} (htag : token.kind = .tag name)
    (hcomponent : CaseStyle.pascal.check component = true)
    (hname : component = name ∨ component = CaseStyle.pascal.convert name) {style : CaseStyle}
    (hstyle : style = .pascal ∨ style = .kebab) :
    let renamed := style.convertExact name
    (component = renamed ∨ component = CaseStyle.pascal.convert renamed) ∧
      ∀ script : ScriptInfo, component ∈ script.registeredComponents →
        Rule.ComponentCasing.isRegistered script renamed = true := by
  intro renamed
  have hrecognized := CaseStyle.recognized_convertExact (isTagChar_of_tokenize h htoken htag)
    hcomponent hname hstyle
  refine ⟨hrecognized, fun script hscript => List.any_eq_true.2 ⟨component, ?_, ?_⟩⟩
  · exact List.mem_filter.2 ⟨hscript, hcomponent⟩
  · rwa [Bool.or_eq_true, beq_iff_eq, beq_iff_eq]

/-- A name with a dash, a digit and two capitals in a row, in kebab-case. -/
theorem recognized_of_tokenize_digits :
    let tokens : List Token := [⟨.tag "Foo-b2RS", ⟨1, 1⟩, ⟨1, 9⟩⟩, ⟨.eos, ⟨1, 9⟩, ⟨1, 9⟩⟩]
    tokenize "Foo-b2RS" = .ok tokens ∧ CaseStyle.pascal.check "FooB2RS" = true ∧
      CaseStyle.pascal.convert "Foo-b2RS" = "FooB2RS" ∧
      CaseStyle.kebab.convertExact "Foo-b2RS" = "foo-b2-r-s" ∧
      ("FooB2RS" = "foo-b2-r-s" ∨ "FooB2RS" = CaseStyle.pascal.convert "foo-b2-r-s") := by
  intro tokens
  have htokens : tokenize "Foo-b2RS" = .ok tokens := by decide +kernel
  have hcheck : CaseStyle.pascal.check "FooB2RS" = true := by decide +kernel
  have hpascal : CaseStyle.pascal.convert "Foo-b2RS" = "FooB2RS" := by decide +kernel
  have hkebab : CaseStyle.kebab.convertExact "Foo-b2RS" = "foo-b2-r-s" := by decide +kernel
  have hrecognized := (recognized_of_tokenize htokens List.mem_cons_self rfl hcheck
    (.inr hpascal.symm) (.inr rfl)).1
  rw [hkebab] at hrecognized
  exact ⟨htokens, hcheck, hpascal, hkebab, hrecognized⟩

end PugLint
