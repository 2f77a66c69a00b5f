import Mathlib.Data.List.Forall2
import PugLint.Text.Blank
import PugLint.Text.Letter

/-!
# Categories of characters

The categories are listed as runs of code points, and the category of a character is sought
among the runs by halves. The runs start one behind the other, so the search ends at the run
that the code point lies in.

* `Category.pairwise_readRuns`: the order of the runs;
* `Category.search_eq`: the search;
* `category_eq`: the category of a character, by its run and the next one;
* `Category.exists_span`: every character lies in a run;
* `isAlphanumeric_of_blank`: no blank is part of a word.
-/

namespace PugLint.Text

/-- What holds of all characters of ASCII, one by one. -/
@[elab_as_elim]
theorem of_ascii {p : Char → Prop} {c : Char} (hlt : c.toNat < 128)
    (h : ∀ n : Fin 128, p (Char.ofNat n)) : p c :=
  Char.ofNat_toNat c ▸ h ⟨c.toNat, hlt⟩

namespace Category

/-- The runs start one behind the other. -/
theorem pairwise_readRuns (first length : Nat) (cs : List Char) :
    (∀ run ∈ readRuns first length cs, first ≤ run.first) ∧
      (readRuns first length cs).Pairwise fun run next => run.first < next.first := by
  fun_induction readRuns first length cs with
  | case1 => exact ⟨nofun, .nil⟩
  | case2 first length c cs _ ih => exact ih
  | case3 first length c cs _ ih =>
    refine ⟨List.forall_mem_cons.2 ⟨Nat.le_refl _, fun run hrun => ?_⟩,
      List.pairwise_cons.2 ⟨fun run hrun => ?_, ih.2⟩⟩
    · have := ih.1 run hrun
      omega
    · have := ih.1 run hrun
      dsimp only
      omega

variable {table : Array Run}

theorem first_le_first (h : table.toList.Pairwise fun run next => run.first < next.first)
    {i j : Nat} {run next : Run} (hrun : table[i]? = some run) (hnext : table[j]? = some next)
    (hle : i ≤ j) : run.first ≤ next.first := by
  rcases Nat.lt_or_eq_of_le hle with hlt | rfl
  · obtain ⟨hi, rfl⟩ := Array.getElem?_eq_some_iff.1 hrun
    obtain ⟨hj, rfl⟩ := Array.getElem?_eq_some_iff.1 hnext
    exact Nat.le_of_lt (List.pairwise_iff_getElem.1 h i j hi hj hlt)
  · cases hrun.symm.trans hnext
    exact Nat.le_refl _

/-- The search ends at the last run that starts at a code point or in front of it. -/
theorem search_eq (h : table.toList.Pairwise fun run next => run.first < next.first)
    {n low high i : Nat} {run : Run} (hrun : table[i]? = some run) (hfirst : run.first ≤ n)
    (hnext : ∀ next, table[i + 1]? = some next → n < next.first) (hlow : low ≤ i)
    (hhigh : i < high) (hsize : high ≤ table.size) : search table n low high = run.category := by
  have hsome {j : Nat} (hj : j < table.size) : ∃ found, table[j]? = some found :=
    ⟨_, Array.getElem?_eq_getElem hj⟩
  -- The run stays between the two bounds.
  fun_induction search table n low high with
  | case1 low high hlt middle hle ih =>
    refine ih (Nat.le_of_not_lt fun hi => ?_) hhigh hsize
    obtain ⟨found, hfound⟩ := hsome (show middle < table.size by omega)
    obtain ⟨next, hnext'⟩ := hsome (show i + 1 < table.size by omega)
    rw [hfound, Option.getD_some] at hle
    have hn := hnext next hnext'
    have := first_le_first h hnext' hfound hi
    omega
  | case2 low high hlt middle hle ih =>
    refine ih hlow (Nat.lt_of_not_le fun hi => hle ?_) (by omega)
    obtain ⟨found, hfound⟩ := hsome (show middle < table.size by omega)
    rw [hfound, Option.getD_some]
    exact Nat.le_trans (first_le_first h hfound hrun hi) hfirst
  | case3 low high hge =>
    obtain rfl : low = i := by omega
    rw [hrun, Option.getD_some]

end Category

/-- The category of a character is that of the run it lies in. -/
theorem category_eq {c : Char} {i first next : Nat} {found : Category}
    (hrun : (Category.runs.toList[i]?.map fun run => (run.first, run.category)) =
      some (first, found))
    (hnext : Category.runs.toList[i + 1]?.map Category.Run.first = some next)
    (hfirst : first ≤ c.toNat) (hlt : c.toNat < next) : category c = found := by
  have hsorted : Category.runs.toList.Pairwise fun run next => run.first < next.first :=
    (Category.pairwise_readRuns ..).2
  rw [category]
  generalize Category.runs = table at hrun hnext hsorted ⊢
  rw [Array.getElem?_toList] at hrun hnext
  obtain ⟨run, htable, heq⟩ := Option.map_eq_some_iff.1 hrun
  obtain ⟨run', htable', rfl⟩ := Option.map_eq_some_iff.1 hnext
  cases heq
  refine Category.search_eq hsorted htable hfirst (fun next hnext => ?_) (Nat.zero_le i)
    (Array.getElem?_eq_some_iff.1 htable).1 (Nat.le_refl _)
  cases htable'.symm.trans hnext
  exact hlt

theorem isWordChar_bracket : isWordChar '[' = false := by
  have hrun : (Category.runs.toList[17]?.map fun run => (run.first, run.category)) =
      some (91, .openPunct) := by decide +kernel
  have hnext : Category.runs.toList[17 + 1]?.map Category.Run.first = some 92 := by decide +kernel
  have hcategory : category '[' = .openPunct := category_eq hrun hnext (by decide) (by decide)
  rw [isWordChar, hcategory]
  rfl

/-! ### Blanks -/

namespace Category

/-- The runs, each with the first code point behind it. -/
def spans (runs : List Run) : List (Run × Nat) :=
  runs.zip (runs.tail.map Run.first ++ [0x110000])

/-- A number from the start of the first run on lies in one of the runs. -/
theorem exists_getElem? {runs : List Run} {n : Nat} (hfirst : ∃ run ∈ runs.head?, run.first ≤ n) :
    ∃ i run, runs[i]? = some run ∧ run.first ≤ n ∧
      ∀ next, runs[i + 1]? = some next → n < next.first := by
  induction runs with
  | nil => simp at hfirst
  | cons run runs ih =>
    obtain ⟨run', hrun, hle⟩ := hfirst
    obtain rfl : run = run' := Option.some.inj hrun
    by_cases hnext : ∃ next ∈ runs.head?, next.first ≤ n
    · obtain ⟨i, found, hfound, hi, hbehind⟩ := ih hnext
      exact ⟨i + 1, found, hfound, hi, hbehind⟩
    · refine ⟨0, run, rfl, hle, fun next hget => Nat.lt_of_not_le fun hle => hnext ⟨next, ?_, hle⟩⟩
      rwa [Option.mem_def, List.head?_eq_getElem?]

/-- The characters of some texts, one text after the other. -/
theorem flatMap_toList {texts : List String} {parts : List (List Char)}
    (h : List.Forall₂ (fun text part => text = String.ofList part) texts parts) :
    texts.flatMap String.toList = parts.flatten := by
  induction h with
  | nil => rfl
  | cons htext _ ih => rw [List.flatMap_cons, List.flatten_cons, ih, htext, String.toList_ofList]

/-- Whether a category is one of the characters of words. -/
def isOfWords : Category → Bool
  | upper | lower | title | modifier | letter | numeral | digit | number | nonspacing | spacing
  | connector => true
  | _ => false

/-- The code points of the blanks outside of ASCII. -/
def blankRanges : List (Nat × Nat) :=
  [(0x85, 0x85), (0xA0, 0xA0), (0x1680, 0x1680), (0x2000, 0x200A), (0x2028, 0x2029),
   (0x202F, 0x202F), (0x205F, 0x205F), (0x3000, 0x3000)]

/-- The code points of the blanks outside of ASCII, and that of the mark of the byte order. -/
def spaceRanges : List (Nat × Nat) :=
  (0xFEFF, 0xFEFF) :: blankRanges

/-- Whether a run of spaces is one of blanks, and a run of characters of words has no blanks. -/
def checksBlanks : Run × Nat → Bool
  | (⟨first, .space⟩, next) =>
    next.ble 128 || blankRanges.any fun (low, high) => low.ble first && next.ble (high + 1)
  | (⟨first, category⟩, next) =>
    !category.isOfWords || spaceRanges.all fun (low, high) => next.ble low || high.blt first

theorem checksBlanks_spans :
    (runs.toList.head?.map Run.first = some 0) ∧ (spans runs.toList).all checksBlanks = true := by
  -- The table is evaluated on its characters; reading them from its texts would take too long.
  obtain ⟨parts, hparts, hall⟩ : ∃ parts : List (List Char),
      List.Forall₂ (fun text part => text = String.ofList part) runLengths parts ∧
        (readRuns 0 0 parts.flatten).head?.map Run.first = some 0 ∧
          (spans (readRuns 0 0 parts.flatten)).all checksBlanks = true := by
    apply Exists.intro
    constructor
    · dsimp only [runLengths]
      repeat' first | exact .nil | exact rfl | apply List.Forall₂.cons
    · decide +kernel
  rwa [runs, flatMap_toList hparts]

/-- A character lies in a run, whose category it has. -/
theorem exists_span (c : Char) : ∃ run next, (run, next) ∈ spans runs.toList ∧
    run.first ≤ c.toNat ∧ c.toNat < next ∧ category c = run.category := by
  obtain ⟨run, hrun, hfirst⟩ := Option.map_eq_some_iff.1 checksBlanks_spans.1
  obtain ⟨i, run, hget, hle, hnext⟩ :=
    exists_getElem? (n := c.toNat) ⟨run, hrun, hfirst ▸ Nat.zero_le _⟩
  have hcategory : category c = run.category := by
    have hsorted : runs.toList.Pairwise fun run next => run.first < next.first :=
      (pairwise_readRuns ..).2
    rw [category]
    generalize runs = table at hget hnext hsorted ⊢
    rw [Array.getElem?_toList] at hget
    refine search_eq hsorted hget hle (fun next hget' => hnext next ?_) (Nat.zero_le i)
      (Array.getElem?_eq_some_iff.1 hget).1 (Nat.le_refl _)
    rwa [Array.getElem?_toList]
  obtain ⟨next, hget', hlt⟩ : ∃ next,
      (runs.toList.tail.map Run.first ++ [0x110000])[i]? = some next ∧ c.toNat < next := by
    cases hget' : runs.toList[i + 1]? with
    | some next =>
      refine ⟨next.first, ?_, hnext next hget'⟩
      have htail : (runs.toList.tail.map Run.first)[i]? = some next.first := by
        rw [List.getElem?_map, List.getElem?_tail, hget', Option.map_some]
      rw [List.getElem?_append_left (List.getElem?_eq_some_iff.1 htail).1, htail]
    | none =>
      have hlength : (runs.toList.tail.map Run.first).length = i := by
        have hi := (List.getElem?_eq_some_iff.1 hget).1
        have hi' := List.getElem?_eq_none_iff.1 hget'
        rw [List.length_map, List.length_tail]
        omega
      refine ⟨0x110000, ?_, ?_⟩
      · rw [List.getElem?_append_right (Nat.le_of_eq hlength), hlength, Nat.sub_self]
        rfl
      · rcases c.valid with hlt | hlt
        · exact Nat.lt_trans hlt (by decide)
        · exact hlt.2
  exact ⟨run, next, List.mem_iff_getElem?.2 ⟨i, List.getElem?_zip_eq_some.2 ⟨hget, hget'⟩⟩, hle,
    hlt, hcategory⟩

end Category

open Category

variable {c : Char}

/-- The characters outside of ASCII that are blanks, and the mark of the byte order. -/
theorem exists_spaceRange (h : isBlank c = true ∨ c.toNat = 0xFEFF) (hle : 128 ≤ c.toNat) :
    ∃ range ∈ spaceRanges, range.1 ≤ c.toNat ∧ c.toNat ≤ range.2 := by
  simp only [isBlank, Bool.or_eq_true, Bool.and_eq_true, decide_eq_true_eq, beq_iff_eq] at h
  simp only [spaceRanges, blankRanges, List.mem_cons, List.not_mem_nil, or_false,
    exists_eq_or_imp, exists_eq_left]
  omega

/-- They are no characters of words. -/
theorem isOfWords_category (h : isBlank c = true ∨ c.toNat = 0xFEFF) (hle : 128 ≤ c.toNat) :
    (category c).isOfWords = false := by
  obtain ⟨⟨low, high⟩, hrange, hlow, hhigh⟩ := exists_spaceRange h hle
  obtain ⟨⟨first, found⟩, next, hspan, hfirst, hnext, hcategory⟩ := exists_span c
  rw [hcategory]
  dsimp only at hlow hhigh hfirst ⊢
  have hchecked := List.all_eq_true.1 checksBlanks_spans.2 _ hspan
  rw [checksBlanks.eq_def] at hchecked
  split at hchecked
  · rename_i heq
    cases heq
    rfl
  · rename_i heq
    cases heq
    rw [Bool.or_eq_true, Bool.not_eq_true'] at hchecked
    refine hchecked.resolve_right fun hall => ?_
    have hdisjoint := List.all_eq_true.1 hall _ hrange
    simp only [Bool.or_eq_true, Nat.ble_eq, Nat.blt_eq] at hdisjoint
    omega

/-- They are in none of some ranges, if this holds of all of them. -/
theorem inRanges_of_blank {ranges : List (Nat × Nat)}
    (hranges : (spaceRanges.all fun space => ranges.all fun range =>
      space.2.blt range.1 || range.2.blt space.1) = true)
    (h : isBlank c = true ∨ c.toNat = 0xFEFF) (hle : 128 ≤ c.toNat) :
    inRanges ranges c.toNat = false := by
  obtain ⟨space, hspace, hlow, hhigh⟩ := exists_spaceRange h hle
  rw [inRanges, List.any_eq_false]
  intro range hrange
  have hdisjoint := List.all_eq_true.1 (List.all_eq_true.1 hranges _ hspace) _ hrange
  simp only [Bool.or_eq_true, Nat.blt_eq, Bool.and_eq_true, decide_eq_true_eq] at hdisjoint ⊢
  omega

/-- A space is a blank. -/
theorem isBlank_of_category (h : category c = .space) (hle : 128 ≤ c.toNat) :
    isBlank c = true := by
  obtain ⟨⟨first, found⟩, next, hspan, hfirst, hnext, hcategory⟩ := exists_span c
  obtain rfl : found = .space := hcategory.symm.trans h
  have hchecked := List.all_eq_true.1 checksBlanks_spans.2 _ hspan
  rw [checksBlanks, Bool.or_eq_true, Nat.ble_eq] at hchecked
  have hany := hchecked.resolve_left (by omega)
  simp only [blankRanges, List.any_cons, List.any_nil, Bool.or_eq_true, Bool.and_eq_true,
    Nat.ble_eq, Bool.or_false] at hany
  dsimp only at hfirst
  simp only [isBlank, Bool.or_eq_true, Bool.and_eq_true, decide_eq_true_eq, beq_iff_eq]
  omega

/-- A blank is neither a letter nor a number. -/
theorem isAlphanumeric_of_blank (h : isBlank c = true ∨ c.toNat = 0xFEFF) :
    isAlphanumeric c = false := by
  by_cases hlt : c.toNat < 128
  · have hall : isBlank c = true ∨ c.toNat = 0xFEFF → isAlphanumeric c = false :=
      of_ascii hlt (by decide +kernel)
    exact hall h
  have hle := Nat.le_of_not_lt hlt
  have hwords := isOfWords_category h hle
  have hother : inRanges otherAlphabetic c.toNat = false :=
    inRanges_of_blank (by decide +kernel) h hle
  rw [isAlphanumeric, isAlphabetic, isNumeric, if_neg hlt, if_neg hlt]
  cases hcategory : category c <;> rw [hcategory] at hwords <;>
    first | exact absurd hwords (by decide) | exact Bool.or_eq_false_iff.2 ⟨hother, rfl⟩

end PugLint.Text
