import PugLint.Casing
import PugLint.Proofs.Text.Category
import PugLint.Proofs.Token.Exchange

/-!
# Names in another case

A conversion of a name changes the case of letters, and lets dashes and underscores come and
go. What else stands in the name stays there: a name with a symbol has no conversion that
passes a check, and the conversion of a tag name is made of the characters of tag names.

* `Casing.Respells`: a text that may be the conversion of another;
* `CaseStyle.respells_convert`: the conversions;
* `CaseStyle.isTagName_convert`: the conversion of the name of an element.
-/

namespace PugLint

open Lexer (isTagChar)

namespace Casing

/-- A text with other cases and with other dashes and underscores: it does not vanish, symbols
    stay, and tag names have none but their characters. -/
structure Respells (s t : List Char) : Prop where
  ne_nil : s ≠ [] → t ≠ []
  symbol : ∀ c ∈ s, isSymbol c = true → c ∈ t
  tagChar : (∀ c ∈ s, isTagChar c = true) → ∀ c ∈ t, isTagChar c = true

namespace Respells

variable {s t u v : List Char}

theorem refl (s : List Char) : Respells s s :=
  ⟨id, fun _ hc _ => hc, id⟩

theorem trans (h : Respells s t) (h' : Respells t u) : Respells s u where
  ne_nil hs := h'.ne_nil (h.ne_nil hs)
  symbol c hc hsymbol := h'.symbol c (h.symbol c hc hsymbol) hsymbol
  tagChar hs := h'.tagChar (h.tagChar hs)

theorem append (h : Respells s t) (h' : Respells u v) : Respells (s ++ u) (t ++ v) where
  ne_nil hs := by
    intro hnil
    obtain ⟨ht, hv⟩ := List.append_eq_nil_iff.1 hnil
    refine hs (List.append_eq_nil_iff.2 ⟨?_, ?_⟩)
    · exact not_imp_not.1 h.ne_nil ht
    · exact not_imp_not.1 h'.ne_nil hv
  symbol c hc hsymbol := by
    rcases List.mem_append.1 hc with hc | hc
    · exact List.mem_append_left _ (h.symbol c hc hsymbol)
    · exact List.mem_append_right _ (h'.symbol c hc hsymbol)
  tagChar hs := by
    rw [List.forall_mem_append] at hs ⊢
    exact ⟨h.tagChar hs.1, h'.tagChar hs.2⟩

theorem cons (c : Char) (h : Respells s t) : Respells (c :: s) (c :: t) :=
  (refl [c]).append h

end Respells

/-! ### Letters -/

theorem lt_of_isSymbol {c : Char} (h : isSymbol c = true) : c.toNat < 128 := by
  have hall : "!\"#%&'()*+,./:;<=>?@[\\]^`\x7b|\x7d".toList.all (·.toNat < 128) = true := by decide
  exact of_decide_eq_true (List.all_eq_true.1 hall c (List.contains_iff_mem.1 h))

theorem lt_of_isTagChar {c : Char} (h : isTagChar c = true) : c.toNat < 128 := by
  simp only [isTagChar, Bool.or_eq_true, beq_iff_eq] at h
  rcases h with ((h | rfl) | rfl) | rfl
  · exact Lexer.lt_of_isAlphanum h
  all_goals decide

/-- In ASCII a change of case keeps symbols and the characters of tag names. -/
theorem case_ascii {c : Char} (h : c.toNat < 128) :
    (isSymbol c = true → c.toLower = c ∧ c.toUpper = c) ∧
      (isTagChar c = true → isTagChar c.toLower = true ∧ isTagChar c.toUpper = true) := by
  exact Text.of_ascii h (by decide +kernel)

/-- Of a character of ASCII, the upper case of the lower case is the upper case. -/
theorem toLower_of_lt {c : Char} (h : c.toNat < 128) :
    c.toLower.toNat < 128 ∧ c.toLower.toUpper = c.toUpper ∧ (c.isLower = false → c.toUpper = c) ∧
      (c.isUpper = false → c.toLower = c) := by
  exact Text.of_ascii h (by decide +kernel)

/-- Characters outside of ASCII become something. -/
theorem respells_of_le {c : Char} {image : List Char} (h : 128 ≤ c.toNat) (hne : image ≠ []) :
    Respells [c] image where
  ne_nil _ := hne
  symbol d hd hsymbol := by
    have hlt := lt_of_isSymbol hsymbol
    rw [List.mem_singleton.1 hd] at hlt
    omega
  tagChar hc := by
    have hlt := lt_of_isTagChar (hc c (List.mem_singleton_self c))
    omega

theorem respells_ascii {c d : Char} (hsymbol : isSymbol c = true → d = c)
    (htag : isTagChar c = true → isTagChar d = true) : Respells [c] [d] where
  ne_nil _ := List.cons_ne_nil _ _
  symbol e he hs := by
    obtain rfl := List.mem_singleton.1 he
    rw [hsymbol hs]
    exact List.mem_singleton_self _
  tagChar hc := List.forall_mem_singleton.2 (htag (hc c (List.mem_singleton_self c)))

theorem respells_toLower (c : Char) : Respells [c] (Text.toLower c) := by
  by_cases hc : c.toNat < 128
  · rw [Text.toLower_ascii hc]
    have hcase := case_ascii hc
    exact respells_ascii (fun h => (hcase.1 h).1) (fun h => (hcase.2 h).1)
  · refine respells_of_le (Nat.le_of_not_lt hc) ?_
    rw [Text.toLower, if_neg hc]
    split <;> exact List.cons_ne_nil _ _

theorem respells_toUpper (c : Char) : Respells [c] (Text.toUpper c) := by
  by_cases hc : c.toNat < 128
  · rw [Text.toUpper_ascii hc]
    have hcase := case_ascii hc
    exact respells_ascii (fun h => (hcase.1 h).2) (fun h => (hcase.2 h).2)
  · refine respells_of_le (Nat.le_of_not_lt hc) ?_
    have hall : ∀ pair ∈ Text.upperExpansions, pair.2 ≠ [] := by decide
    rw [Text.toUpper, if_neg hc]
    split
    · rename_i image hlookup
      obtain ⟨before, after, hmem, -⟩ := List.lookup_eq_some_iff.1 hlookup
      have hpair := hall (c.toNat, image) (by rw [hmem]; simp)
      simpa using hpair
    · exact List.cons_ne_nil _ _

/-! ### Dashes and underscores -/

/-- A dash or an underscore. -/
def isMark (c : Char) : Bool := c == '-' || c == '_'

theorem of_isMark {c : Char} (h : isMark c = true) : isSymbol c = false ∧ isTagChar c = true := by
  simp only [isMark, Bool.or_eq_true, beq_iff_eq] at h
  rcases h with rfl | rfl <;> decide

theorem joinHumps_cons {c : Char} (h : isMark c = false) (s : List Char) :
    joinHumps (c :: s) = c :: joinHumps s := by
  cases s with
  | nil => rfl
  | cons d s =>
    rw [joinHumps, if_neg]
    rw [Bool.and_eq_true]
    exact fun hboth => Bool.false_ne_true (h.symm.trans hboth.1)

theorem joinHumps_of_not_isMark {s : List Char} (h : ∀ c ∈ s, isMark c = false) :
    joinHumps s = s := by
  induction s with
  | nil => rfl
  | cons c s ih =>
    obtain ⟨hc, hs⟩ := List.forall_mem_cons.1 h
    rw [joinHumps_cons hc, ih hs]

theorem not_isMark_of_not_contains {s : List Char} (hdash : s.contains '-' = false)
    (hscore : s.contains '_' = false) : ∀ c ∈ s, isMark c = false := by
  intro c hc
  rw [isMark, Bool.or_eq_false_iff, beq_eq_false_iff_ne, beq_eq_false_iff_ne]
  constructor
  · rintro rfl
    rw [List.contains_iff_mem.2 hc] at hdash
    cases hdash
  · rintro rfl
    rw [List.contains_iff_mem.2 hc] at hscore
    cases hscore

/-- A name in PascalCase has no dashes and underscores. -/
theorem not_isMark_of_isPascal {s : List Char} (h : isPascal s = true) :
    ∀ c ∈ s, isMark c = false := by
  simp only [isPascal, Bool.not_eq_true', Bool.or_eq_false_iff] at h
  exact not_isMark_of_not_contains h.1.1.2 h.1.2

/-- A mark comes in. -/
theorem Respells.insert {mark : Char} (hmark : isMark mark = true) {s t : List Char}
    (h : Respells s t) : Respells s (mark :: t) where
  ne_nil _ := List.cons_ne_nil _ _
  symbol c hc hsymbol := List.mem_cons_of_mem _ (h.symbol c hc hsymbol)
  tagChar hs := List.forall_mem_cons.2 ⟨(of_isMark hmark).2, h.tagChar hs⟩

/-- A mark in front of something goes. -/
theorem Respells.erase {mark : Char} (hmark : isMark mark = true) {s t : List Char}
    (h : Respells s t) (hs : s ≠ []) : Respells (mark :: s) t where
  ne_nil _ := h.ne_nil hs
  symbol c hc hsymbol := by
    rcases List.mem_cons.1 hc with rfl | hc
    · rw [(of_isMark hmark).1] at hsymbol
      cases hsymbol
    · exact h.symbol c hc hsymbol
  tagChar hs := h.tagChar (List.forall_mem_cons.1 hs).2

/-! ### Words -/

theorem respells_lowercaseFrom (before s : List Char) :
    Respells s (Text.lowercaseFrom before s) := by
  induction s generalizing before with
  | nil => exact .refl []
  | cons c s ih =>
    rw [Text.lowercaseFrom]
    refine Respells.append (?_ : Respells [c] _) (ih (c :: before))
    split
    · rename_i hc
      obtain rfl := LawfulBEq.eq_of_beq hc
      split <;> exact respells_of_le (by decide) (List.cons_ne_nil _ _)
    · exact respells_toLower c

theorem respells_capitalize (s : List Char) : Respells s (Text.capitalize s) := by
  cases s with
  | nil => exact .refl []
  | cons c s => exact (respells_toUpper c).append (.refl s)

theorem respells_uncapitalize (s : List Char) : Respells s (Text.uncapitalize s) := by
  cases s with
  | nil => exact .refl []
  | cons c s => exact (respells_toLower c).append (.refl s)

theorem respells_replaceChar {a b : Char} (ha : isMark a = true) (hb : isMark b = true)
    (s : List Char) : Respells s (replaceChar a b s) := by
  induction s with
  | nil => exact .refl []
  | cons c s ih =>
    refine Respells.append (?_ : Respells [c] [if c == a then b else c]) ih
    split
    · rename_i hc
      obtain rfl := LawfulBEq.eq_of_beq hc
      refine respells_ascii (fun hsymbol => ?_) fun _ => (of_isMark hb).2
      rw [(of_isMark ha).1] at hsymbol
      cases hsymbol
    · exact .refl [c]

theorem respells_splitHumps {mark : Char} (hmark : isMark mark = true) (previous : Option Char)
    (s : List Char) : Respells s (splitHumps mark previous s) := by
  induction s generalizing previous with
  | nil => exact .refl []
  | cons c s ih =>
    rw [splitHumps]
    split
    · exact ((ih (some c)).cons c).insert hmark
    · exact (ih (some c)).cons c

theorem respells_joinHumps (s : List Char) : Respells s (joinHumps s) := by
  fun_induction joinHumps s with
  | case1 a b s h ih =>
    simp only [Bool.and_eq_true] at h
    exact Respells.erase h.1 ((respells_toUpper b).append ih) (List.cons_ne_nil _ _)
  | case2 a b s h ih => exact ih.cons a
  | case3 s => exact .refl s

theorem respells_toCamel (s : List Char) : Respells s (toCamel s) := by
  rw [toCamel]
  split
  · exact respells_uncapitalize s
  · exact respells_joinHumps s

end Casing

namespace CaseStyle

open Casing

/-- A conversion respells the name. -/
theorem respells_convert (style : CaseStyle) (name : String) :
    Respells name.toList (style.convert name).toList := by
  cases style with
  | kebab =>
    rw [convert, String.toList_ofList, toKebab]
    exact ((respells_replaceChar rfl rfl _).trans (respells_splitHumps rfl none _)).trans
      (respells_lowercaseFrom [] _)
  | camel =>
    rw [convert, String.toList_ofList]
    exact respells_toCamel _
  | pascal =>
    rw [convert, String.toList_ofList, toPascal]
    exact (respells_toCamel _).trans (respells_capitalize _)
  | snake =>
    rw [convert, String.toList_ofList, toSnake]
    exact ((respells_splitHumps rfl none _).trans (respells_replaceChar rfl rfl _)).trans
      (respells_lowercaseFrom [] _)

/-- A name that passes a check has no symbols and no blanks. -/
theorem plain_of_check {style : CaseStyle} {name : String} (h : style.check name = true) :
    ∀ c ∈ name.toList, isSymbol c = false ∧ Text.isBlank c = false := by
  intro c hc
  cases style <;>
    simp only [check, isKebab, isSnake, isCamel, isPascal, Bool.not_eq_true', Bool.or_eq_false_iff,
      List.any_eq_false, Bool.not_eq_true] at h
  case kebab => exact ⟨h.1.1.1.1.2 c hc, h.2 c hc⟩
  case snake => exact ⟨h.1.1.1.2 c hc, h.2 c hc⟩
  all_goals exact ⟨h.1.1.1.1 c hc, h.2 c hc⟩

/-- A name that passes a check starts with no dash. -/
theorem head?_ne_of_check {style : CaseStyle} {name : String} (h : style.check name = true) :
    name.toList.head? ≠ some '-' := by
  intro hhead
  have hmem : name.toList.contains '-' = true := List.contains_iff_mem.2 (List.mem_of_head? hhead)
  cases style <;>
    simp only [check, isKebab, isSnake, isCamel, isPascal, hhead, hmem, beq_self_eq_true,
      Bool.or_true, Bool.true_or, Bool.not_true, Bool.false_eq_true] at h

/-! ### Where names may stand -/

variable {style : CaseStyle} {name : String}

/-- The name of an attribute needs no quotes if it passes a check. -/
theorem isNamePlain_of_check (h : style.check name = true) : ∀ c ∈ name.toList,
    Lexer.isNamePlain c = true ∧ c ≠ '"' ∧ c ≠ '\'' := by
  intro c hc
  obtain ⟨hsymbol, hblank⟩ := plain_of_check h c hc
  refine ⟨?_, ?_, ?_⟩
  · by_contra hplain
    simp only [Lexer.isNamePlain, Bool.not_eq_true', Bool.not_eq_false, List.contains_iff_mem,
      List.mem_cons, List.not_mem_nil, or_false] at hplain
    rcases hplain with rfl | rfl | rfl | rfl | rfl | rfl | rfl | rfl | rfl | rfl <;>
      first | exact absurd hblank (by decide) | exact absurd hsymbol (by decide)
  · rintro rfl
    cases hsymbol
  · rintro rfl
    cases hsymbol

/-- A name that passes a check is no separator of attributes. -/
theorem not_isSeparator_of_check (h : style.check name = true) : ∀ c ∈ name.toList,
    Lexer.isSeparator c = false ∧ c ≠ ')' := by
  intro c hc
  obtain ⟨hsymbol, hblank⟩ := plain_of_check h c hc
  constructor
  · rw [Lexer.isSeparator, Bool.or_eq_false_iff, beq_eq_false_iff_ne]
    constructor
    · by_contra hascii
      rw [Bool.not_eq_false] at hascii
      rw [Text.isBlank_of_isAsciiBlank hascii] at hblank
      cases hblank
    · rintro rfl
      cases hsymbol
  · rintro rfl
    cases hsymbol

/-- A name whose conversion passes the check has no symbols. -/
theorem not_isSymbol_of_check_convert (h : style.check (style.convert name) = true) :
    ∀ c ∈ name.toList, isSymbol c = false := by
  intro c hc
  by_contra hsymbol
  rw [Bool.not_eq_false] at hsymbol
  have hmem := (style.respells_convert name).symbol c hc hsymbol
  rw [(plain_of_check h c hmem).1] at hsymbol
  cases hsymbol

/-- The conversion of the name of an element may be the name of an element, unless a dash
    is left at its end. -/
theorem isTagName_convert (h : style.check (style.convert name) = true)
    (hchars : ∀ c ∈ name.toList, isTagChar c = true) (hne : name.toList ≠ [])
    (hlast : (style.convert name).toList.getLast? ≠ some '-') :
    Lexer.IsTagName (style.convert name).toList := by
  have hrespells := style.respells_convert name
  have htag := hrespells.tagChar hchars
  have hcolon : ∀ c ∈ (style.convert name).toList, c ≠ ':' := by
    rintro c hc rfl
    cases (plain_of_check h _ hc).1
  refine ⟨?_, htag, ?_⟩
  · obtain ⟨c, cs, hcs⟩ := List.exists_cons_of_ne_nil (hrespells.ne_nil hne)
    have hhead := head?_ne_of_check h
    rw [hcs] at htag hcolon hhead
    have hc := htag c List.mem_cons_self
    have hdash : c ≠ '-' := fun heq => hhead (congrArg some heq)
    refine ⟨c, cs, hcs, ?_⟩
    simpa [isTagChar, hdash, hcolon c List.mem_cons_self] using hc
  · intro c hc
    have hdash : c ≠ '-' := by
      rintro rfl
      exact hlast hc
    simp [Lexer.isJoint, hdash, hcolon c (List.mem_of_getLast? hc)]

end CaseStyle

end PugLint
