import Mathlib.Data.List.Forall2
import PugLint.Proofs.Expression
import PugLint.Proofs.Text.Search
import PugLint.Proofs.Token.Paths

/-!
# Another name in an expression

One of the identifiers of an expression is replaced by another one that starts with the same
character. The reader is then behind the name in the same state as before, so that all other
identifiers are found again: those in front where they were, those behind moved by as many bytes
as the names differ.

The quotes of a value stay what they are, and so does the place where a `v-for` is cut in two, as
long as the name stands behind it.

* `Expression.offsets`: where an identifier stands in an expression;
* `Expression.exists_offsets_rename`: the same identifier, after one of them has been replaced;
* `Expression.CutAt`: where a `v-for` is cut, which `Expression.CutAt.exchange` says to depend on
  what stands in front alone;
* `Expression.exists_unquoteChars_exchange`: a value with another text inside its quotes.
-/

namespace PugLint

namespace Expression

open Text

/-! ### Identifiers -/

/-- A string that ends is passed over whatever stands behind it. -/
theorem exists_skipString_append {quote : Char} {cs : List Char} (h : skipString quote cs ≠ []) :
    ∃ passed, cs = passed ++ skipString quote cs ∧
      ∀ rest, skipString quote (passed ++ rest) = rest := by
  fun_induction skipString quote cs with
  | case1 => exact absurd rfl h
  | case2 c cs ih =>
    obtain ⟨passed, hcs, hpassed⟩ := ih h
    exact ⟨'\\' :: c :: passed, congrArg ('\\' :: c :: ·) hcs, hpassed⟩
  | case3 c cs hescape hquote =>
    refine ⟨[c], rfl, fun rest => ?_⟩
    obtain ⟨d, ds, rfl⟩ := List.exists_cons_of_ne_nil h
    rw [List.singleton_append, skipString.eq_3 _ _ _ fun _ _ heq _ => hescape d ds heq rfl,
      if_pos hquote]
  | case4 c cs hescape hquote ih =>
    obtain ⟨passed, hcs, hpassed⟩ := ih h
    refine ⟨c :: passed, congrArg (c :: ·) hcs, fun rest => ?_⟩
    have hne : c ≠ '\\' := by
      rintro rfl
      rcases cs with _ | ⟨d, ds⟩
      · exact h rfl
      · exact hescape d ds rfl rfl
    rw [List.cons_append, skipString.eq_3 _ _ _ fun _ _ heq _ => hne heq, if_neg hquote,
      hpassed]

/-- A run of characters stays as it is if what stands behind it starts with the same character. -/
theorem takeWhile_exchange {p : Char → Bool} {cs rest : List Char}
    (h : rest.head? = (cs.dropWhile p).head?) :
    (cs.takeWhile p ++ rest).takeWhile p = cs.takeWhile p ∧
      (cs.takeWhile p ++ rest).dropWhile p = rest :=
  Lexer.takeWhile_append_stop (fun _ hc => List.mem_takeWhile_imp hc)
    (h ▸ Lexer.head?_dropWhile_eq_false p cs)

/-- The same identifier in front of two texts. -/
structure Occurrence.Corresponds (tail tail' : List Char) (found found' : Occurrence) :
    Prop where
  name_eq : found'.name = found.name
  rest_eq : ∃ between, found.rest = between ++ tail ∧ found'.rest = between ++ tail'

/-- An identifier of an expression can be replaced by another one that starts with the same
    character: the identifiers in front of it correspond, and those behind it are the same. -/
def Renames (afterDot : Bool) (cs : List Char) (c : Char) (name rest : List Char) : Prop :=
  ∃ before front, cs = before ++ (c :: name ++ rest) ∧
    occurrencesFrom afterDot cs = front ++ ⟨c :: name, rest⟩ :: occurrences rest ∧
    ∀ name' : List Char, (∀ d ∈ name', isIdentifierChar d = true) →
      ∃ front', List.Forall₂ (Occurrence.Corresponds (c :: name ++ rest) (c :: name' ++ rest))
          front front' ∧
        occurrencesFrom afterDot (before ++ (c :: name' ++ rest)) =
          front' ++ ⟨c :: name', rest⟩ :: occurrences rest

/-- A step of the reader that does not depend on the text behind it, its first character apart. -/
theorem Renames.step {afterDot afterDot' : Bool} {cs tail : List Char} {c : Char}
    {name rest : List Char} (passed : List Char) (names : List (List Char))
    (hcs : cs = passed ++ tail)
    (hread : ∀ text : List Char, text.head? = tail.head? → occurrencesFrom afterDot
      (passed ++ text) = names.map (⟨·, text⟩) ++ occurrencesFrom afterDot' text)
    (h : Renames afterDot' tail c name rest) : Renames afterDot cs c name rest := by
  obtain ⟨before, front, rfl, hfront, hrename⟩ := h
  refine ⟨passed ++ before, names.map (⟨·, before ++ (c :: name ++ rest)⟩) ++ front, ?_, ?_,
    fun name' hname' => ?_⟩
  · rw [hcs, List.append_assoc]
  · rw [hcs, hread _ rfl, hfront, List.append_assoc]
  · obtain ⟨front', hcorresponds, hfront'⟩ := hrename name' hname'
    refine ⟨names.map (⟨·, before ++ (c :: name' ++ rest)⟩) ++ front', ?_, ?_⟩
    · refine List.rel_append ?_ hcorresponds
      rw [List.forall₂_map_left_iff, List.forall₂_map_right_iff]
      exact List.forall₂_same.2 fun _ _ => ⟨rfl, before, rfl, rfl⟩
    · have hhead : (before ++ (c :: name' ++ rest)).head? =
          (before ++ (c :: name ++ rest)).head? := by
        cases before <;> rfl
      rw [List.append_assoc, hread _ hhead, hfront', List.append_assoc]

theorem renames_of_mem_occurrencesFrom {afterDot : Bool} {cs : List Char} {c : Char}
    {name rest : List Char} (h : ⟨c :: name, rest⟩ ∈ occurrencesFrom afterDot cs) :
    Renames afterDot cs c name rest := by
  fun_induction occurrencesFrom afterDot cs with
  | case1 => exact absurd h List.not_mem_nil
  | case2 afterDot d ds hquote ih =>
    have hne : skipString d ds ≠ [] := by
      intro hnil
      rw [hnil, occurrencesFrom] at h
      exact absurd h List.not_mem_nil
    obtain ⟨passed, hds, hskip⟩ := exists_skipString_append hne
    refine (ih h).step (d :: passed) [] (congrArg (d :: ·) hds) fun text _ => ?_
    rw [List.cons_append, occurrencesFrom, if_pos hquote, hskip]
    rfl
  | case3 d ds hquote hstart tail ih =>
    refine (ih h).step (d :: ds.takeWhile isIdentifierChar) [] ?_ fun text htext => ?_
    · rw [List.cons_append, List.takeWhile_append_dropWhile]
    · rw [List.cons_append, occurrencesFrom, if_neg hquote, if_pos hstart, if_pos rfl,
        (takeWhile_exchange htext).2]
      rfl
  | case4 afterDot d ds hquote hstart tail hdot ih =>
    have hread (text : List Char) (htext : text.head? = tail.head?) :
        occurrencesFrom afterDot (d :: ds.takeWhile isIdentifierChar ++ text) =
          [d :: ds.takeWhile isIdentifierChar].map (⟨·, text⟩) ++ occurrencesFrom false text := by
      obtain ⟨htake, hdrop⟩ := takeWhile_exchange htext
      rw [List.cons_append, occurrencesFrom, if_neg hquote, if_pos hstart, if_neg hdot, htake,
        hdrop]
      rfl
    have hds : d :: ds = d :: ds.takeWhile isIdentifierChar ++ tail := by
      rw [List.cons_append, List.takeWhile_append_dropWhile]
    rcases List.mem_cons.1 h with heq | h
    · obtain ⟨hname, rfl⟩ := Occurrence.mk.inj heq
      obtain ⟨rfl, rfl⟩ := List.cons.inj hname
      refine ⟨[], [], hds, by rw [hds, hread tail rfl]; rfl, fun name' hname' => ⟨[], .nil, ?_⟩⟩
      obtain ⟨htake, hdrop⟩ := Lexer.takeWhile_append_stop hname'
        (Lexer.head?_dropWhile_eq_false isIdentifierChar ds)
      rw [List.nil_append, List.cons_append, occurrencesFrom, if_neg hquote, if_pos hstart,
        if_neg hdot, htake, hdrop]
      rfl
    · exact (ih h).step _ _ hds hread
  | case5 afterDot d ds hquote hstart hblank ih =>
    refine (ih h).step [d] [] rfl fun text _ => ?_
    rw [List.singleton_append, occurrencesFrom, if_neg hquote, if_neg hstart, if_pos hblank]
    rfl
  | case6 afterDot d ds hquote hstart hblank ih =>
    refine (ih h).step [d] [] rfl fun text _ => ?_
    rw [List.singleton_append, occurrencesFrom, if_neg hquote, if_neg hstart, if_neg hblank]
    rfl

/-! ### Offsets -/

/-- Where an identifier stands, if it has a given name. -/
def Occurrence.offsetOf? (name expression : List Char) (occurrence : Occurrence) : Option Nat :=
  if occurrence.name == name then some (occurrence.offset expression) else none

/-- The bytes of an expression where an identifier of a given name stands. -/
def offsets (name expression : List Char) : List Nat :=
  (occurrences expression).filterMap (·.offsetOf? name expression)

/-- Behind a text, the identifiers of an expression stand as many bytes further back. -/
theorem filterMap_offsetOf?_append (name before rest : List Char) :
    (occurrences rest).filterMap (·.offsetOf? name (before ++ rest)) =
      (offsets name rest).map (byteLength before + ·) := by
  rw [offsets, List.map_filterMap]
  refine List.filterMap_congr fun occurrence hm => ?_
  obtain ⟨front, rfl, -⟩ := exists_append_of_mem_occurrences hm
  simp only [Occurrence.offsetOf?]
  split
  · simp only [Occurrence.offset, byteLength_append, Option.map_some, Option.some.injEq]
    omega
  · rfl

namespace Occurrence

variable {tail tail' : List Char}

theorem Corresponds.offsetOf?_eq {found found' : Occurrence}
    (h : Corresponds tail tail' found found') (name before : List Char) :
    found'.offsetOf? name (before ++ tail') = found.offsetOf? name (before ++ tail) := by
  obtain ⟨between, hrest, hrest'⟩ := h.rest_eq
  have hoffset : found'.offset (before ++ tail') = found.offset (before ++ tail) := by
    simp only [offset, h.name_eq, hrest, hrest', byteLength_append]
    omega
  rw [offsetOf?, offsetOf?, h.name_eq, hoffset]

theorem exists_rest_eq {front front' : List Occurrence}
    (h : List.Forall₂ (Corresponds tail tail') front front') :
    ∀ found ∈ front, ∃ between, found.rest = between ++ tail := by
  induction h with
  | nil => exact List.forall_mem_nil _
  | cons h _ ih => exact List.forall_mem_cons.2 ⟨h.rest_eq.imp fun _ => And.left, ih⟩

theorem filterMap_offsetOf?_eq {front front' : List Occurrence}
    (h : List.Forall₂ (Corresponds tail tail') front front') (name before : List Char) :
    front'.filterMap (·.offsetOf? name (before ++ tail')) =
      front.filterMap (·.offsetOf? name (before ++ tail)) := by
  induction h with
  | nil => rfl
  | cons h _ ih => rw [List.filterMap_cons, List.filterMap_cons, h.offsetOf?_eq, ih]

end Occurrence

/-- One of the places of an identifier, and its places after it has been replaced there. -/
theorem exists_offsets_rename {c : Char} {name expression : List Char} {n : Nat}
    (h : n ∈ offsets (c :: name) expression) :
    ∃ before rest front, expression = before ++ (c :: name ++ rest) ∧ n = byteLength before ∧
      offsets (c :: name) expression = front ++ n :: (offsets (c :: name) rest).map
        (byteLength (before ++ c :: name) + ·) ∧
      (∀ m ∈ front, m + byteLength (c :: name) ≤ n) ∧
      ∀ name' : List Char, (∀ d ∈ name', isIdentifierChar d = true) → name' ≠ name →
        offsets (c :: name) (before ++ (c :: name' ++ rest)) =
          front ++ (offsets (c :: name) rest).map (byteLength (before ++ c :: name') + ·) := by
  obtain ⟨⟨found, rest⟩, hm, hoffset⟩ := List.mem_filterMap.1 h
  rw [Occurrence.offsetOf?] at hoffset
  split at hoffset
  · rename_i hname
    obtain rfl : found = c :: name := LawfulBEq.eq_of_beq hname
    obtain ⟨before, front, rfl, hfront, hrename⟩ := renames_of_mem_occurrencesFrom hm
    have hn : n = byteLength before := by
      have heq := (Option.some.inj hoffset).symm
      simp only [Occurrence.offset, byteLength_append] at heq
      omega
    have hbehind (name' : List Char) :
        (occurrences rest).filterMap (·.offsetOf? (c :: name) (before ++ (c :: name' ++ rest))) =
          (offsets (c :: name) rest).map (byteLength (before ++ c :: name') + ·) := by
      rw [← filterMap_offsetOf?_append, List.append_assoc]
    refine ⟨before, rest, front.filterMap (·.offsetOf? (c :: name) (before ++ (c :: name ++ rest))),
      rfl, hn, ?_, fun m hm => ?_, fun name' hname' hne => ?_⟩
    · have hfound : Occurrence.offsetOf? (c :: name) (before ++ (c :: name ++ rest))
          ⟨c :: name, rest⟩ = some n := by
        rw [Occurrence.offsetOf?, if_pos hname, hoffset]
      rw [offsets, occurrences, hfront, List.filterMap_append, List.filterMap_cons_some hfound,
        hbehind]
    · obtain ⟨other, hother, hm⟩ := List.mem_filterMap.1 hm
      -- Any other name tells where the identifiers in front of it end.
      obtain ⟨front', hcorresponds, -⟩ := hrename [] (List.forall_mem_nil _)
      obtain ⟨between, hrest⟩ := Occurrence.exists_rest_eq hcorresponds other hother
      have hmem : other ∈ occurrences (before ++ (c :: name ++ rest)) := by
        rw [occurrences, hfront]
        exact List.mem_append_left _ hother
      obtain ⟨start, hstart, hbytes⟩ := exists_append_of_mem_occurrences hmem
      rw [Occurrence.offsetOf?] at hm
      split at hm
      · rename_i hother
        have hlength := congrArg byteLength hstart
        rw [LawfulBEq.eq_of_beq hother, hrest] at hlength
        simp only [byteLength_append] at hlength
        rw [← Option.some.inj hm, hbytes, hn]
        omega
      · cases hm
    · obtain ⟨front', hcorresponds, hfront'⟩ := hrename name' hname'
      have hfound : Occurrence.offsetOf? (c :: name) (before ++ (c :: name' ++ rest))
          ⟨c :: name', rest⟩ = none := by
        rw [Occurrence.offsetOf?, if_neg]
        intro heq
        exact hne (List.cons.inj (LawfulBEq.eq_of_beq heq)).2
      rw [offsets, occurrences, hfront', List.filterMap_append, List.filterMap_cons_none hfound,
        Occurrence.filterMap_offsetOf?_eq hcorresponds, hbehind]
  · cases hoffset

/-- The last place of an identifier from some byte on, and its places after it has been replaced
    there. -/
theorem exists_last_offset_rename {c : Char} {name expression : List Char} {first n : Nat}
    {front : List Nat} (h : (offsets (c :: name) expression).filter (first ≤ ·) = front ++ [n]) :
    ∃ before rest, expression = before ++ (c :: name ++ rest) ∧ n = byteLength before ∧
      first ≤ n ∧ (∀ m ∈ front, m + byteLength (c :: name) ≤ n) ∧
      ∀ name' : List Char, (∀ d ∈ name', isIdentifierChar d = true) → name' ≠ name →
        (offsets (c :: name) (before ++ (c :: name' ++ rest))).filter (first ≤ ·) = front := by
  have hmem : n ∈ (offsets (c :: name) expression).filter (first ≤ ·) := by
    rw [h]
    exact List.mem_append_right _ List.mem_cons_self
  obtain ⟨hmem, hfirst⟩ := List.mem_filter.1 hmem
  have hfirst : first ≤ n := of_decide_eq_true hfirst
  obtain ⟨before, rest, places, hexpression, hn, hplaces, hfront, hrename⟩ :=
    exists_offsets_rename hmem
  have hkept (places : List Nat) {m : Nat} (hm : n ≤ m) :
      (places ++ [m]).filter (first ≤ ·) = places.filter (first ≤ ·) ++ [m] := by
    rw [List.filter_append, List.filter_cons, if_pos (decide_eq_true (hfirst.trans hm)),
      List.filter_nil]
  -- Places further back would be kept as well, and one of them would be the last.
  have hrest : offsets (c :: name) rest = [] := by
    rcases List.eq_nil_or_concat (offsets (c :: name) rest) with hnil | ⟨others, last, hlast⟩
    · exact hnil
    · have hpos := c.utf8Size_pos
      have hlater : n < byteLength (before ++ c :: name) + last := by
        rw [hn, byteLength_append, byteLength_cons]
        omega
      rw [hplaces, hlast, List.concat_eq_append, List.map_append, List.map_singleton,
        ← List.cons_append, ← List.append_assoc, hkept _ hlater.le] at h
      cases List.append_inj_right' h rfl
      exact absurd hlater (Nat.lt_irrefl _)
  simp only [hrest, List.map_nil, List.append_nil] at hplaces hrename
  rw [hplaces, hkept _ (Nat.le_refl n)] at h
  have hkeep := List.append_cancel_right h
  refine ⟨before, rest, hexpression, hn, hfirst, fun m hm => ?_, fun name' hname' hne => ?_⟩
  · rw [← hkeep] at hm
    exact hfront m (List.mem_of_mem_filter hm)
  · rw [hrename name' hname' hne, hkeep]

/-! ### The two sides of a `v-for` -/

/-- The words between the two sides of a `v-for`. -/
def iterationWords : List (List Char) :=
  [" in ".toList, " of ".toList]

/-- Behind a text there is a word of a `v-for`, and no other one stands further in front. -/
structure CutAt (expression left : List Char) : Prop where
  starts : ∃ word ∈ iterationWords, left ++ word <+: expression
  first : ∀ word ∈ iterationWords, ∀ front, front ++ word <+: expression →
    left.length ≤ front.length

theorem forall_mem_iterationWords {p : List Char → Prop} :
    (∀ word ∈ iterationWords, p word) ↔ p " in ".toList ∧ p " of ".toList := by
  rw [iterationWords, List.forall_mem_cons, List.forall_mem_singleton]

theorem cutAt_of_splitIteration? {expression left right : List Char}
    (h : splitIteration? expression = some (left, right)) : CutAt expression left := by
  -- What a search for one of the words finds stands in the expression.
  have hstarts {word before rest : List Char}
      (h : splitBefore? word expression = some (before, rest)) : before ++ word <+: expression := by
    rw [← append_of_splitBefore? h, List.prefix_append_right_inj]
    exact isPrefix_of_splitBefore? h
  have hin : " in ".toList ∈ iterationWords := List.mem_cons_self
  have hof : " of ".toList ∈ iterationWords := List.mem_cons_of_mem _ List.mem_cons_self
  simp only [splitIteration?] at h
  cases hcut : splitBefore? " in ".toList expression with
  | none =>
    rw [hcut] at h
    obtain ⟨parts, hcut', heq⟩ := Option.map_eq_some_iff.1 h
    cases heq
    refine ⟨⟨_, hof, hstarts hcut'⟩, forall_mem_iterationWords.2 ⟨fun front hfront => ?_,
      fun front => length_le_of_splitBefore? hcut'⟩⟩
    exact absurd hfront (not_isPrefix_of_splitBefore?_eq_none hcut front)
  | some parts =>
    cases hcut' : splitBefore? " of ".toList expression with
    | none =>
      rw [hcut, hcut'] at h
      cases h
      refine ⟨⟨_, hin, hstarts hcut⟩, forall_mem_iterationWords.2
        ⟨fun front => length_le_of_splitBefore? hcut, fun front hfront => ?_⟩⟩
      exact absurd hfront (not_isPrefix_of_splitBefore?_eq_none hcut' front)
    | some parts' =>
      rw [hcut, hcut', Option.map_some, Option.map_some, Option.some.injEq] at h
      split at h
      · rename_i hle
        cases h
        exact ⟨⟨_, hin, hstarts hcut⟩, forall_mem_iterationWords.2
          ⟨fun front => length_le_of_splitBefore? hcut,
            fun front hfront => Nat.le_trans hle (length_le_of_splitBefore? hcut' hfront)⟩⟩
      · rename_i hle
        cases h
        exact ⟨⟨_, hof, hstarts hcut'⟩, forall_mem_iterationWords.2
          ⟨fun front hfront => Nat.le_trans (Nat.le_of_not_le hle)
            (length_le_of_splitBefore? hcut hfront), fun front => length_le_of_splitBefore? hcut'⟩⟩

theorem isSome_splitIteration? {expression front word : List Char} (hword : word ∈ iterationWords)
    (h : front ++ word <+: expression) : (splitIteration? expression).isSome = true := by
  by_contra hnone
  have hcuts : splitBefore? " in ".toList expression = none ∧
      splitBefore? " of ".toList expression = none := by
    simp only [splitIteration?] at hnone
    cases hcut : splitBefore? " in ".toList expression <;>
      cases hcut' : splitBefore? " of ".toList expression <;> simp_all
  have hnot : ∀ word ∈ iterationWords, ¬front ++ word <+: expression :=
    forall_mem_iterationWords.2 ⟨not_isPrefix_of_splitBefore?_eq_none hcuts.1 front,
      not_isPrefix_of_splitBefore?_eq_none hcuts.2 front⟩
  exact hnot word hword h

/-- The first place of a word is where a `v-for` is cut. -/
theorem CutAt.exists_splitIteration? {expression left : List Char} (h : CutAt expression left) :
    ∃ right, splitIteration? expression = some (left, right) := by
  obtain ⟨word, hword, hstarts⟩ := h.starts
  obtain ⟨⟨front, right⟩, hsplit⟩ :=
    Option.isSome_iff_exists.1 (isSome_splitIteration? hword hstarts)
  have hcut := cutAt_of_splitIteration? hsplit
  obtain ⟨word', hword', hstarts'⟩ := hcut.starts
  obtain rfl : front = left := by
    have hlength : front.length = left.length :=
      Nat.le_antisymm (hcut.first word hword left hstarts) (h.first word' hword' front hstarts')
    refine (List.prefix_of_prefix_length_le ((List.prefix_append _ _).trans hstarts')
      ((List.prefix_append _ _).trans hstarts) hlength.le).eq_of_length hlength
  exact ⟨right, hsplit⟩

/-- A `v-for` is cut at the same place whatever stands behind. -/
theorem CutAt.exchange {before rest left : List Char} (h : CutAt (before ++ rest) left)
    (hle : byteLength left + 4 ≤ byteLength before) (rest' : List Char) :
    CutAt (before ++ rest') left := by
  have hlength : ∀ word ∈ iterationWords, word.length = 4 ∧ byteLength word = 4 := by decide
  obtain ⟨word, hword, hstarts⟩ := h.starts
  have hbefore : left ++ word <+: before :=
    isPrefix_of_byteLength_le hstarts (List.prefix_append _ _)
      (by rw [byteLength_append, (hlength word hword).2]; exact hle)
  refine ⟨⟨word, hword, hbefore.trans (List.prefix_append _ _)⟩,
    fun word' hword' front hfront => ?_⟩
  by_contra hlt
  -- A word further in front would stand in the text that is the same.
  have hle' : (front ++ word').length ≤ before.length := by
    have := hbefore.length_le
    rw [List.length_append, (hlength word hword).1] at this
    rw [List.length_append, (hlength word' hword').1]
    omega
  exact hlt (h.first word' hword' front ((List.prefix_of_prefix_length_le hfront
    (List.prefix_append before rest') hle').trans (List.prefix_append _ _)))

/-! ### Quotes -/

theorem quoted?_of_isQuote {quote : Char} (h : isQuote quote = true) (inner : List Char) :
    quoted? (quote :: (inner ++ [quote])) = some inner := by
  rw [quoted?, List.getLast?_concat, h, beq_self_eq_true, Bool.and_self, if_pos rfl,
    List.dropLast_concat]

/-- A value with another text inside its quotes. If there are no quotes, there may be none around
    the other text. -/
theorem exists_unquoteChars_exchange (value : String) :
    ∃ opening closing, value.toList = opening ++ (unquoteChars value.toList ++ closing) ∧
      unquotedOffset value = byteLength opening ∧
      ∀ inside : List Char, (quoted? (unquoteChars value.toList) = none → quoted? inside = none) →
        unquoteChars (opening ++ (inside ++ closing)) = inside ∧
          unquotedOffset (String.ofList (opening ++ (inside ++ closing))) = byteLength opening := by
  simp only [unquotedOffset, String.toList_ofList]
  rw [unquoteChars]
  cases h : quoted? value.toList with
  | none =>
    refine ⟨[], [], by simp, rfl, fun inside hinside => ?_⟩
    have hnone := hinside h
    rw [List.nil_append, List.append_nil, unquoteChars, hnone]
    exact ⟨rfl, rfl⟩
  | some inner =>
    obtain ⟨quote, hquote, hvalue⟩ := exists_of_quoted? h
    have hsize : byteLength [quote] = 1 := by
      simp only [isQuote, Bool.or_eq_true, beq_iff_eq] at hquote
      rcases hquote with (rfl | rfl) | rfl <;> rfl
    refine ⟨[quote], [quote], hvalue, hsize.symm, fun inside _ => ?_⟩
    rw [List.singleton_append, unquoteChars, quoted?_of_isQuote hquote, hsize]
    exact ⟨rfl, rfl⟩

/-- Inside of a text, a run of characters is exchanged for another one with the same end. -/
theorem quoted?_exchange {before run run' after : List Char} {c d : Char}
    (hc : isQuote c = false) (hrun : run.getLast? = some d) (hrun' : run'.getLast? = some d)
    (h : quoted? (before ++ c :: (run ++ after)) = none) :
    quoted? (before ++ c :: (run' ++ after)) = none := by
  rcases before with _ | ⟨b, before⟩
  · rw [List.nil_append, quoted?, hc]
    rfl
  · have hlast : (before ++ c :: (run' ++ after)).getLast? =
        (before ++ c :: (run ++ after)).getLast? := by
      rw [List.append_cons, List.append_cons before c (run ++ after)]
      simp only [List.getLast?_append, hrun, hrun']
    rw [List.cons_append, quoted?] at h ⊢
    rw [hlast]
    split at h
    · cases h
    · rename_i hnot
      exact if_neg hnot

end Expression

end PugLint
