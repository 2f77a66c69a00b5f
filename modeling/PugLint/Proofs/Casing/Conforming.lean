import PugLint.Proofs.Casing

/-!
# Names that conform already

A name that follows a convention is not always what the conversion to that convention gives: the
checks know the letters of ASCII alone, and the conversions those of all scripts. The result of
such a conversion follows the convention too, so that it takes the place of the name. It is the
name itself just where no letter changes its case.

* `Text.lowercase_eq_self_iff`: the texts that are their own lower case;
* `CaseStyle.check_convert_of_check`: the conversion of a name that conforms;
* `CaseStyle.convertExact_eq_self_iff`: the conforming names that stay as they are.
-/

namespace PugLint

namespace Text

/-! ### Lower case -/

theorem toLower_ne_nil (c : Char) : toLower c ≠ [] :=
  (Casing.respells_toLower c).ne_nil (List.cons_ne_nil _ _)

theorem toUpper_ne_nil (c : Char) : toUpper c ≠ [] :=
  (Casing.respells_toUpper c).ne_nil (List.cons_ne_nil _ _)

/-- The lower case of a text is that of its characters, one after the other; a sigma may take its
    final form. -/
theorem exists_lowercaseFrom_cons (before : List Char) (c : Char) (s : List Char) :
    ∃ image, lowercaseFrom before (c :: s) = image ++ lowercaseFrom (c :: before) s ∧
      image ≠ [] ∧ (image = [c] ↔ toLower c = [c]) ∧ ∀ d ∈ image, d = 'ς' ∨ d ∈ toLower c := by
  have hlower : toLower 'Σ' = ['σ'] := by decide +kernel
  by_cases hc : c = 'Σ'
  · subst hc
    refine ⟨_, rfl, ?_⟩
    rw [if_pos (beq_self_eq_true _), hlower]
    split <;> simp
  · refine ⟨_, rfl, ?_⟩
    rw [if_neg (mt LawfulBEq.eq_of_beq hc)]
    exact ⟨toLower_ne_nil c, Iff.rfl, fun d hd => .inr hd⟩

theorem length_le_lowercaseFrom (before s : List Char) :
    s.length ≤ (lowercaseFrom before s).length := by
  induction s generalizing before with
  | nil => exact Nat.zero_le _
  | cons c s ih =>
    obtain ⟨image, himage, hne, -, -⟩ := exists_lowercaseFrom_cons before c s
    have hpos := List.length_pos_of_ne_nil hne
    have hle := ih (c :: before)
    rw [himage, List.length_append, List.length_cons]
    omega

/-- A text is its own lower case if all of its characters are. -/
theorem lowercase_eq_self_iff (s : List Char) : lowercase s = s ↔ ∀ c ∈ s, toLower c = [c] := by
  suffices h : ∀ before, lowercaseFrom before s = s ↔ ∀ c ∈ s, toLower c = [c] from h []
  induction s with
  | nil => exact fun _ => iff_of_true rfl nofun
  | cons c s ih =>
    intro before
    obtain ⟨image, himage, hne, hself, -⟩ := exists_lowercaseFrom_cons before c s
    rw [himage, List.forall_mem_cons, ← ih (c :: before), ← hself]
    constructor
    · intro heq
      -- No image is empty, so each has the place of its character.
      have hlength : image.length = 1 := by
        have := congrArg List.length heq
        have := length_le_lowercaseFrom (c :: before) s
        have := List.length_pos_of_ne_nil hne
        simp only [List.length_append, List.length_cons] at *
        omega
      rw [← List.singleton_append] at heq
      exact List.append_inj heq hlength
    · rintro ⟨rfl, hs⟩
      rw [hs, List.singleton_append]

/-! ### Images of letters -/

/-- The images of a run lie outside of some ranges. -/
def CaseRun.avoids (ranges : List (Nat × Nat)) (run : CaseRun) : Bool :=
  ranges.all fun (low, high) =>
    ((run.first + (run.count - 1) * run.stride : Nat) : Int) + run.shift < low ||
      (high : Int) < run.first + run.shift

/-- The character of a code point has it, if there is one. -/
theorem toNat_ofNat (n : Nat) : (Char.ofNat n).toNat = n ∨ (Char.ofNat n).toNat = 0 := by
  by_cases h : n.isValidChar
  · rw [Char.ofNat, dif_pos h]
    exact .inl rfl
  · rw [Char.ofNat, dif_neg h]
    exact .inr rfl

/-- A letter outside of ASCII is mapped to no character of some ranges, if this holds of the
    runs. -/
theorem inRanges_mapCase (runs : List CaseRun) {ranges : List (Nat × Nat)}
    (hruns : (runs.all fun run =>
      decide (run.first + (run.count - 1) * run.stride < 128) || run.avoids ranges) = true)
    (hzero : inRanges ranges 0 = false) {c : Char} (hle : 128 ≤ c.toNat)
    (hc : inRanges ranges c.toNat = false) :
    inRanges ranges (mapCase runs c).toNat = false := by
  rw [mapCase]
  split
  · rename_i run hrun
    have hcontains := List.find?_some hrun
    have hrun := List.all_eq_true.1 hruns run (List.mem_of_find?_eq_some hrun)
    simp only [CaseRun.contains, Bool.and_eq_true, decide_eq_true_eq] at hcontains
    rw [Bool.or_eq_true, decide_eq_true_eq] at hrun
    have havoids := hrun.resolve_left (by omega)
    rcases toNat_ofNat ((c.toNat : Int) + run.shift).toNat with himage | himage
    · rw [himage]
      rcases Int.le_total ((c.toNat : Int) + run.shift) 0 with hneg | hpos
      · rwa [Int.toNat_of_nonpos hneg]
      rw [inRanges, List.any_eq_false]
      rintro ⟨low, high⟩ hmem
      have hrange := List.all_eq_true.1 havoids (low, high) hmem
      simp only [Bool.or_eq_true, Bool.and_eq_true, decide_eq_true_eq] at hrange ⊢
      omega
    · rwa [himage]
  · exact hc

end Text

namespace Casing

/-! ### Plain characters -/

/-- A character that all conventions admit at any place, unless it is a capital of ASCII. -/
def isPlain (c : Char) : Bool := !(isSymbol c || Text.isBlank c || isMark c)

/-- The code points of the characters that are not plain. -/
def notPlain : List (Nat × Nat) :=
  [(9, 13), (32, 35), (37, 47), (58, 64), (91, 96), (123, 125), (0x85, 0x85), (0xA0, 0xA0),
   (0x1680, 0x1680), (0x2000, 0x200A), (0x2028, 0x2029), (0x202F, 0x202F), (0x205F, 0x205F),
   (0x3000, 0x3000)]

theorem isPlain_eq (c : Char) : isPlain c = !Text.inRanges notPlain c.toNat := by
  by_cases hlt : c.toNat < 128
  · exact Text.of_ascii hlt (by decide +kernel)
  · have hsymbol : isSymbol c = false := Bool.eq_false_iff.2 fun h => hlt (lt_of_isSymbol h)
    have hmark : isMark c = false :=
      Bool.eq_false_iff.2 fun h => hlt (lt_of_isTagChar (of_isMark h).2)
    rw [isPlain, hsymbol, hmark, Bool.or_false, Bool.false_or]
    refine congrArg not (Bool.eq_iff_iff.2 ?_)
    simp only [Text.isBlank, Text.inRanges, notPlain, List.any_cons, List.any_nil, Bool.or_eq_true,
      Bool.and_eq_true, decide_eq_true_eq, beq_iff_eq, Bool.false_eq_true, or_false]
    omega

theorem of_isUpper {c : Char} (h : c.isUpper = true) : 65 ≤ c.toNat ∧ c.toNat ≤ 90 :=
  (of_decide_eq_true h).imp UInt32.le_iff_toNat_le.1 UInt32.le_iff_toNat_le.1

theorem of_isLower {c : Char} (h : c.isLower = true) : 97 ≤ c.toNat ∧ c.toNat ≤ 122 := by
  obtain ⟨hfirst, hlast⟩ := Bool.and_eq_true_iff.1 h
  exact ⟨UInt32.le_iff_toNat_le.1 (of_decide_eq_true hfirst),
    UInt32.le_iff_toNat_le.1 (of_decide_eq_true hlast)⟩

/-- A character outside of some ranges, which are those of the characters that are not plain and
    one more of ASCII. -/
theorem isPlain_of_inRanges {low high : Nat} {c : Char}
    (h : Text.inRanges (notPlain ++ [(low, high)]) c.toNat = false) :
    isPlain c = true ∧ ¬(low ≤ c.toNat ∧ c.toNat ≤ high) := by
  rw [Text.inRanges, List.any_append, Bool.or_eq_false_iff] at h
  refine ⟨by rw [isPlain_eq, Text.inRanges, h.1]; rfl, fun hrange => ?_⟩
  simp [hrange.1, hrange.2] at h

theorem inRanges_of_isPlain (low high : Nat) (hhigh : high < 128) {c : Char}
    (hle : 128 ≤ c.toNat) (h : isPlain c = true) :
    Text.inRanges (notPlain ++ [(low, high)]) c.toNat = false := by
  rw [isPlain_eq, Bool.not_eq_true', Text.inRanges] at h
  have hbehind : ¬c.toNat ≤ high := by omega
  rw [Text.inRanges, List.any_append, h]
  simp [hbehind]

/-- In lower case a plain character is plain, and no capital of ASCII. -/
theorem isPlain_toLower {c : Char} (h : isPlain c = true) :
    ∀ d ∈ Text.toLower c, isPlain d = true ∧ d.isUpper = false := by
  by_cases hlt : c.toNat < 128
  · have hall : isPlain c = true → isPlain c.toLower = true ∧ c.toLower.isUpper = false :=
      Text.of_ascii hlt (by decide +kernel)
    rw [Text.toLower_ascii hlt]
    exact List.forall_mem_singleton.2 (hall h)
  rw [Text.toLower, if_neg hlt]
  split
  · exact List.forall_mem_cons.2
      ⟨by decide +kernel, List.forall_mem_singleton.2 (by decide +kernel)⟩
  · have hranges := inRanges_of_isPlain 65 90 (by decide) (Nat.le_of_not_lt hlt) h
    have himage := Text.inRanges_mapCase Text.lowerRuns (by decide +kernel) (by decide)
      (Nat.le_of_not_lt hlt) hranges
    obtain ⟨hplain, hcapital⟩ := isPlain_of_inRanges himage
    refine List.forall_mem_singleton.2 ⟨hplain, ?_⟩
    exact Bool.eq_false_iff.2 fun h => hcapital (of_isUpper h)

/-- In upper case a plain character is made of plain ones, of which none is a small letter of
    ASCII. -/
theorem isPlain_toUpper {c : Char} (h : isPlain c = true) :
    ∀ d ∈ Text.toUpper c, isPlain d = true ∧ d.isLower = false := by
  by_cases hlt : c.toNat < 128
  · have hall : isPlain c = true → isPlain c.toUpper = true ∧ c.toUpper.isLower = false :=
      Text.of_ascii hlt (by decide +kernel)
    rw [Text.toUpper_ascii hlt]
    exact List.forall_mem_singleton.2 (hall h)
  suffices hranges : ∀ d ∈ Text.toUpper c,
      Text.inRanges (notPlain ++ [(97, 122)]) d.toNat = false by
    intro d hd
    obtain ⟨hplain, hsmall⟩ := isPlain_of_inRanges (hranges d hd)
    exact ⟨hplain, Bool.eq_false_iff.2 fun h => hsmall (of_isLower h)⟩
  rw [Text.toUpper, if_neg hlt]
  split
  · rename_i image hlookup
    have hall : (Text.upperExpansions.all fun pair =>
        pair.2.all fun n => !Text.inRanges (notPlain ++ [(97, 122)]) (Char.ofNat n).toNat) =
        true := by
      decide +kernel
    obtain ⟨before, after, hmem, -⟩ := List.lookup_eq_some_iff.1 hlookup
    have hpair := List.all_eq_true.1 hall (c.toNat, image) (by rw [hmem]; simp)
    intro d hd
    obtain ⟨n, hn, rfl⟩ := List.mem_map.1 hd
    simpa using List.all_eq_true.1 hpair n hn
  · have hranges := inRanges_of_isPlain 97 122 (by decide) (Nat.le_of_not_lt hlt) h
    exact List.forall_mem_singleton.2 <| Text.inRanges_mapCase Text.upperRuns
      (by decide +kernel) (by decide) (Nat.le_of_not_lt hlt) hranges

theorem not_isMark_of_isPlain {c : Char} (h : isPlain c = true) : isMark c = false := by
  simp only [isPlain, Bool.not_eq_true', Bool.or_eq_false_iff] at h
  exact h.2

/-! ### Names of one case -/

/-- A text of plain characters and one of the marks, without capitals of ASCII. -/
def IsLowered (mark : Char) (s : List Char) : Prop :=
  ∀ c ∈ s, (isPlain c = true ∧ c.isUpper = false) ∨ c = mark

theorem hasDouble_cons (mark c : Char) (s : List Char) :
    hasDouble mark (c :: s) = ((c == mark && s.head? == some mark) || hasDouble mark s) := by
  cases s with
  | nil => simp [hasDouble]
  | cons d s => rfl

theorem hasDouble_append {mark : Char} {image : List Char} (h : ∀ c ∈ image, c ≠ mark)
    (s : List Char) : hasDouble mark (image ++ s) = hasDouble mark s := by
  induction image with
  | nil => rfl
  | cons c image ih =>
    obtain ⟨hc, himage⟩ := List.forall_mem_cons.1 h
    rw [List.cons_append, hasDouble_cons, beq_eq_false_iff_ne.2 hc, Bool.false_and,
      Bool.false_or, ih himage]

/-- In lower case such a text is one again, with the marks in their places. -/
theorem isLowered_lowercase {mark : Char} (hmark : isMark mark = true) {s : List Char}
    (h : IsLowered mark s) :
    IsLowered mark (Text.lowercase s) ∧
      ((Text.lowercase s).head? = some mark ↔ s.head? = some mark) ∧
      hasDouble mark (Text.lowercase s) = hasDouble mark s := by
  suffices hfrom : ∀ before, IsLowered mark (Text.lowercaseFrom before s) ∧
      ((Text.lowercaseFrom before s).head? = some mark ↔ s.head? = some mark) ∧
      hasDouble mark (Text.lowercaseFrom before s) = hasDouble mark s from hfrom []
  induction s with
  | nil => exact fun _ => ⟨nofun, Iff.rfl, rfl⟩
  | cons c s ih =>
    intro before
    obtain ⟨hc, hs⟩ := List.forall_mem_cons.1 h
    obtain ⟨image, himage, hne, hself, hmem⟩ := Text.exists_lowercaseFrom_cons before c s
    obtain ⟨hlowered, hhead, hdouble⟩ := ih hs (c :: before)
    rw [himage]
    by_cases heq : c = mark
    · have hfixed : Text.toLower c = [c] := by
        subst heq
        simp only [isMark, Bool.or_eq_true, beq_iff_eq] at hmark
        rcases hmark with rfl | rfl <;> decide
      rw [hself.2 hfixed, List.singleton_append]
      refine ⟨List.forall_mem_cons.2 ⟨hc, hlowered⟩, Iff.rfl, ?_⟩
      have hsecond : ((Text.lowercaseFrom (c :: before) s).head? == some mark) =
          (s.head? == some mark) := Bool.eq_iff_iff.2 (by simpa using hhead)
      rw [hasDouble_cons, hasDouble_cons, hdouble, hsecond]
    · have hplain : ∀ d ∈ image, isPlain d = true ∧ d.isUpper = false := by
        intro d hd
        rcases hmem d hd with rfl | hd
        · decide
        · exact isPlain_toLower (hc.resolve_right heq).1 d hd
      have hother : ∀ d ∈ image, d ≠ mark := by
        rintro d hd rfl
        rw [not_isMark_of_isPlain (hplain d hd).1] at hmark
        cases hmark
      refine ⟨List.forall_mem_append.2 ⟨fun d hd => .inl (hplain d hd), hlowered⟩, ?_, ?_⟩
      · obtain ⟨d, image, rfl⟩ := List.exists_cons_of_ne_nil hne
        simp [heq, hother d List.mem_cons_self]
      · rw [hasDouble_append hother, hdouble, hasDouble_cons, beq_eq_false_iff_ne.2 heq]
        rfl

/-- The conventions of one case admit plain characters and their mark, but not the other one. -/
theorem isLowered_iff (mark other : Char)
    (hmarks : ∀ c, isMark c = true ↔ c = mark ∨ c = other) (hne : other ≠ mark)
    (hmark : mark.isUpper = false ∧ isSymbol mark = false ∧ Text.isBlank mark = false)
    (s : List Char) :
    IsLowered mark s ↔
      ((s.any Char.isUpper = false ∧ s.any isSymbol = false) ∧ s.contains other = false) ∧
        s.any Text.isBlank = false := by
  simp only [List.any_eq_false, List.contains_eq_mem, decide_eq_false_iff_not, Bool.not_eq_true]
  constructor
  · intro h
    have hchar : ∀ c ∈ s, c.isUpper = false ∧ isSymbol c = false ∧ Text.isBlank c = false := by
      intro c hc
      rcases h c hc with ⟨hplain, hcapital⟩ | rfl
      · simp only [isPlain, Bool.not_eq_true', Bool.or_eq_false_iff] at hplain
        exact ⟨hcapital, hplain.1.1, hplain.1.2⟩
      · exact hmark
    refine ⟨⟨⟨fun c hc => (hchar c hc).1, fun c hc => (hchar c hc).2.1⟩, fun hother => ?_⟩,
      fun c hc => (hchar c hc).2.2⟩
    have hplain := not_isMark_of_isPlain ((h other hother).resolve_right hne).1
    rw [(hmarks other).2 (.inr rfl)] at hplain
    cases hplain
  · rintro ⟨⟨⟨hcapital, hsymbol⟩, hother⟩, hblank⟩ c hc
    by_cases hself : c = mark
    · exact .inr hself
    have hplain : isMark c = false := by
      rw [Bool.eq_false_iff, ne_eq, hmarks, not_or]
      refine ⟨hself, ?_⟩
      rintro rfl
      exact hother hc
    exact .inl ⟨by rw [isPlain, hsymbol c hc, hblank c hc, hplain]; rfl, hcapital c hc⟩

theorem isKebab_iff (s : List Char) :
    isKebab s = true ↔ IsLowered '-' s ∧ s.head? ≠ some '-' ∧ hasDouble '-' s = false := by
  rw [isLowered_iff _ '_' (by simp [isMark]) (by decide) (by decide)]
  simp only [isKebab, Bool.not_eq_true', Bool.or_eq_false_iff, beq_eq_false_iff_ne]
  tauto

theorem isSnake_iff (s : List Char) :
    isSnake s = true ↔ IsLowered '_' s ∧ hasDouble '_' s = false := by
  rw [isLowered_iff _ '-' (by simp [isMark, or_comm]) (by decide) (by decide)]
  simp only [isSnake, Bool.not_eq_true', Bool.or_eq_false_iff]
  tauto

theorem splitHumps_of_isLowered {mark : Char} (hmark : isMark mark = true) (joint : Char)
    (previous : Option Char) {s : List Char} (h : IsLowered mark s) :
    splitHumps joint previous s = s := by
  induction s generalizing previous with
  | nil => rfl
  | cons c s ih =>
    obtain ⟨hc, hs⟩ := List.forall_mem_cons.1 h
    have hcapital : c.isUpper = false := by
      rcases hc with hc | rfl
      · exact hc.2
      · simp only [isMark, Bool.or_eq_true, beq_iff_eq] at hmark
        rcases hmark with rfl | rfl <;> rfl
    rw [splitHumps, hcapital, Bool.false_and, if_neg Bool.false_ne_true, ih (some c) hs]

theorem replaceChar_of_isLowered {mark other : Char} (hother : isMark other = true)
    (hne : other ≠ mark) {s : List Char} (h : IsLowered mark s) : replaceChar other mark s = s := by
  refine (List.map_congr_left fun c hc => ?_).trans (List.map_id s)
  refine if_neg fun heq => ?_
  obtain rfl := LawfulBEq.eq_of_beq heq
  rw [not_isMark_of_isPlain ((h c hc).resolve_right hne).1] at hother
  cases hother

theorem toKebab_of_isLowered {s : List Char} (h : IsLowered '-' s) :
    toKebab s = Text.lowercase s := by
  rw [toKebab, replaceChar_of_isLowered (by rfl) (by decide) h, splitHumps_of_isLowered rfl _ _ h]

theorem toSnake_of_isLowered {s : List Char} (h : IsLowered '_' s) :
    toSnake s = Text.lowercase s := by
  rw [toSnake, splitHumps_of_isLowered rfl _ _ h, replaceChar_of_isLowered (by rfl) (by decide) h]

/-! ### Names of humps -/

/-- The conventions of humps admit plain characters alone. -/
theorem isPlain_iff (s : List Char) :
    (∀ c ∈ s, isPlain c = true) ↔
      ((s.any isSymbol = false ∧ s.contains '-' = false) ∧ s.contains '_' = false) ∧
        s.any Text.isBlank = false := by
  simp only [isPlain, isMark, Bool.not_eq_true', Bool.or_eq_false_iff, beq_eq_false_iff_ne,
    List.any_eq_false, List.contains_eq_mem, decide_eq_false_iff_not, Bool.not_eq_true]
  constructor
  · intro h
    exact ⟨⟨⟨fun c hc => (h c hc).1.1, fun hc => (h _ hc).2.1 rfl⟩, fun hc => (h _ hc).2.2 rfl⟩,
      fun c hc => (h c hc).1.2⟩
  · rintro ⟨⟨⟨hsymbol, hdash⟩, hscore⟩, hblank⟩ c hc
    exact ⟨⟨hsymbol c hc, hblank c hc⟩, fun heq => hdash (heq ▸ hc), fun heq => hscore (heq ▸ hc)⟩

theorem isCamel_iff (s : List Char) :
    isCamel s = true ↔ (∀ c ∈ s, isPlain c = true) ∧ s.head?.any Char.isUpper = false := by
  rw [isPlain_iff]
  simp only [isCamel, Bool.not_eq_true', Bool.or_eq_false_iff]
  tauto

theorem isPascal_iff (s : List Char) :
    isPascal s = true ↔ (∀ c ∈ s, isPlain c = true) ∧ s.head?.any Char.isLower = false := by
  rw [isPlain_iff]
  simp only [isPascal, Bool.not_eq_true', Bool.or_eq_false_iff]
  tauto

theorem toCamel_of_isCamel {s : List Char} (h : isCamel s = true) :
    toCamel s = Text.uncapitalize s := by
  obtain ⟨hplain, hcapital⟩ := (isCamel_iff s).1 h
  rw [toCamel]
  split
  · rfl
  · rename_i hpascal
    rw [joinHumps_of_not_isMark fun c hc => not_isMark_of_isPlain (hplain c hc)]
    cases s with
    | nil => rfl
    | cons c s =>
      -- The name starts with a small letter of ASCII.
      have hsmall : c.isLower = true := by
        rw [isPascal_iff, not_and, Bool.not_eq_false] at hpascal
        exact hpascal hplain
      have hlt := Nat.lt_of_le_of_lt (of_isLower hsmall).2 (by decide : 122 < 128)
      rw [Text.uncapitalize, Text.toLower_ascii hlt, (toLower_of_lt hlt).2.2.2 hcapital,
        List.singleton_append]

theorem toPascal_eq_capitalize {s : List Char} (h : isPascal s = true) :
    toPascal s = Text.capitalize (Text.uncapitalize s) := by
  rw [toPascal, toCamel, if_pos h]

theorem isCamel_uncapitalize {s : List Char} (h : isCamel s = true) :
    isCamel (Text.uncapitalize s) = true := by
  cases s with
  | nil => rfl
  | cons c s =>
    obtain ⟨hc, hs⟩ := List.forall_mem_cons.1 ((isCamel_iff _).1 h).1
    have hlower := isPlain_toLower hc
    obtain ⟨d, more, himage⟩ := List.exists_cons_of_ne_nil (Text.toLower_ne_nil c)
    rw [himage, List.forall_mem_cons] at hlower
    rw [isCamel_iff, Text.uncapitalize, himage]
    exact ⟨List.forall_mem_append.2 ⟨List.forall_mem_cons.2
      ⟨hlower.1.1, fun d hd => (hlower.2 d hd).1⟩, hs⟩, hlower.1.2⟩

theorem isPascal_capitalize {s : List Char} (h : ∀ c ∈ s, isPlain c = true) :
    isPascal (Text.capitalize s) = true := by
  cases s with
  | nil => rfl
  | cons c s =>
    obtain ⟨hc, hs⟩ := List.forall_mem_cons.1 h
    have hupper := isPlain_toUpper hc
    obtain ⟨d, more, himage⟩ := List.exists_cons_of_ne_nil (Text.toUpper_ne_nil c)
    rw [himage, List.forall_mem_cons] at hupper
    rw [isPascal_iff, Text.capitalize, himage]
    exact ⟨List.forall_mem_append.2 ⟨List.forall_mem_cons.2
      ⟨hupper.1.1, fun d hd => (hupper.2 d hd).1⟩, hs⟩, hupper.1.2⟩

theorem isPlain_uncapitalize {s : List Char} (h : ∀ c ∈ s, isPlain c = true) :
    ∀ c ∈ Text.uncapitalize s, isPlain c = true := by
  cases s with
  | nil => exact h
  | cons c s =>
    obtain ⟨hc, hs⟩ := List.forall_mem_cons.1 h
    exact List.forall_mem_append.2 ⟨fun d hd => (isPlain_toLower hc d hd).1, hs⟩

end Casing

namespace CaseStyle

open Casing

/-- Whether the letters of a name that follows a convention have the case that the conversion to it
    gives them: all letters, or the first one. -/
def KeepsCase : CaseStyle → List Char → Prop
  | kebab, s | snake, s => ∀ c ∈ s, Text.toLower c = [c]
  | camel, s => ∀ c ∈ s.head?, Text.toLower c = [c]
  | pascal, s => ∀ c ∈ s.head?, Text.capitalize (Text.toLower c) = [c]

variable {style : CaseStyle} {name : String}

/-- The conversion of a name that follows a convention changes no more than the case of letters. -/
theorem toList_convert_of_check (h : style.check name = true) :
    (style.convert name).toList =
      match style with
      | kebab | snake => Text.lowercase name.toList
      | camel => Text.uncapitalize name.toList
      | pascal => Text.capitalize (Text.uncapitalize name.toList) := by
  cases style <;> rw [convert, String.toList_ofList]
  case kebab => exact toKebab_of_isLowered ((isKebab_iff _).1 h).1
  case snake => exact toSnake_of_isLowered ((isSnake_iff _).1 h).1
  case camel => exact toCamel_of_isCamel h
  case pascal => exact toPascal_eq_capitalize h

/-- The conversion of a name that follows a convention follows it too. -/
theorem check_convert_of_check (h : style.check name = true) :
    style.check (style.convert name) = true := by
  have hconvert := toList_convert_of_check h
  cases style <;> rw [check, hconvert]
  case kebab =>
    obtain ⟨hlowered, hhead, hdouble⟩ := (isKebab_iff _).1 h
    obtain ⟨hlowered', hhead', hdouble'⟩ := isLowered_lowercase rfl hlowered
    exact (isKebab_iff _).2 ⟨hlowered', mt hhead'.1 hhead, hdouble'.trans hdouble⟩
  case snake =>
    obtain ⟨hlowered, hdouble⟩ := (isSnake_iff _).1 h
    obtain ⟨hlowered', -, hdouble'⟩ := isLowered_lowercase rfl hlowered
    exact (isSnake_iff _).2 ⟨hlowered', hdouble'.trans hdouble⟩
  case camel => exact isCamel_uncapitalize h
  case pascal => exact isPascal_capitalize (isPlain_uncapitalize ((isPascal_iff _).1 h).1)

/-- A conversion leaves a name that follows the convention alone where its letters keep their
    case. -/
theorem convert_eq_self_iff (h : style.check name = true) :
    style.convert name = name ↔ style.KeepsCase name.toList := by
  rw [← String.toList_inj, toList_convert_of_check h]
  cases style
  case kebab => exact Text.lowercase_eq_self_iff _
  case snake => exact Text.lowercase_eq_self_iff _
  all_goals
    rw [KeepsCase]
    rcases name.toList with _ | ⟨c, s⟩
    · exact iff_of_true rfl nofun
    have hhead (image : List Char) :
        image ++ s = c :: s ↔ image = [c] := by
      rw [← List.singleton_append, List.append_left_inj]
  case camel =>
    rw [Text.uncapitalize, hhead]
    simp
  case pascal =>
    obtain ⟨d, more, himage⟩ := List.exists_cons_of_ne_nil (Text.toLower_ne_nil c)
    rw [Text.uncapitalize, himage, List.cons_append, Text.capitalize, ← List.append_assoc, hhead]
    simp [himage, Text.capitalize]

/-- The exact conversion leaves a name that follows the convention alone just where its letters
    keep their case. -/
theorem convertExact_eq_self_iff (h : style.check name = true) :
    style.convertExact name = name ↔ style.KeepsCase name.toList := by
  rw [convertExact, if_pos (check_convert_of_check h), convert_eq_self_iff h]

/-- A capital outside of ASCII may begin a name in PascalCase. -/
theorem convertExact_eq_self_capital :
    CaseStyle.pascal.check "Élan" = true ∧ CaseStyle.pascal.convertExact "Élan" = "Élan" := by
  have hcheck : CaseStyle.pascal.check "Élan" = true := by decide
  refine ⟨hcheck, (convertExact_eq_self_iff hcheck).2 ?_⟩
  have hcase : Text.capitalize (Text.toLower 'É') = ['É'] := by decide +kernel
  simpa [KeepsCase] using hcase

/-- Names that follow their conventions, and what the exact conversion makes of them. -/
theorem convertExact_changes :
    (CaseStyle.kebab.check "É" = true ∧ CaseStyle.kebab.convertExact "É" = "é") ∧
      (CaseStyle.pascal.check "éa" = true ∧ CaseStyle.pascal.convertExact "éa" = "Éa") := by
  decide +kernel

/-- A name of ASCII that follows the convention stays as it is. -/
theorem convertExact_of_ascii (h : style.check name = true)
    (hascii : ∀ c ∈ name.toList, c.toNat < 128) : style.convertExact name = name := by
  rw [convertExact, if_pos (check_convert_of_check h), convert_eq_self_iff h]
  have hlower {c : Char} (hc : c ∈ name.toList) (hcapital : c.isUpper = false) :
      Text.toLower c = [c] := by
    rw [Text.toLower_ascii (hascii c hc), (toLower_of_lt (hascii c hc)).2.2.2 hcapital]
  cases style
  case kebab =>
    simp only [check, isKebab, Bool.not_eq_true', Bool.or_eq_false_iff, List.any_eq_false,
      Bool.not_eq_true] at h
    exact fun c hc => hlower hc (h.1.1.1.1.1 c hc)
  case snake =>
    simp only [check, isSnake, Bool.not_eq_true', Bool.or_eq_false_iff, List.any_eq_false,
      Bool.not_eq_true] at h
    exact fun c hc => hlower hc (h.1.1.1.1 c hc)
  case camel =>
    intro c hc
    have hcapital := ((isCamel_iff _).1 h).2
    rw [hc] at hcapital
    exact hlower (List.mem_of_head? hc) hcapital
  case pascal =>
    intro c hc
    have hsmall := ((isPascal_iff _).1 h).2
    rw [hc] at hsmall
    obtain ⟨hlt, hcase, hupper, -⟩ := toLower_of_lt (hascii c (List.mem_of_head? hc))
    rw [Text.toLower_ascii (hascii c (List.mem_of_head? hc)), Text.capitalize,
      Text.toUpper_ascii hlt, hcase, hupper hsmall, List.append_nil]

end CaseStyle

end PugLint
