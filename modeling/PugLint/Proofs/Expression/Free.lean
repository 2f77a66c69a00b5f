import Mathlib.Data.List.TakeWhile
import PugLint.Proofs.Expression
import PugLint.Proofs.Text.Category

/-!
# Free identifiers

An identifier of an expression is free if it is not the name of a member. The free identifiers are
given here by the places where they start: outside of strings, at a character that may begin an
identifier, behind one that is no part of an identifier, and not behind the dot of a member. The
reader of expressions goes over the text once and keeps whether it has passed a dot. It differs
from this in two ways: behind digits it takes the letters of the same run for an identifier, and
the dots of a spread for the dot of a member.

* `Expression.freeIdentifiers`: the free identifiers of a text;
* `Expression.mem_freeIdentifiers`: the runs of characters that they are;
* `Expression.readIdentifiers`: those that the reader finds;
* `Expression.map_name_occurrencesFrom`: what a run of the reader finds behind any text;
* `Expression.identifiers_eq_free`: the free identifiers are those that the reader finds, where the
  two do not differ.
-/

namespace PugLint.Expression

open Text

/-! ### Characters -/

theorem isIdentifierChar_of_isIdentifierStart {c : Char} (h : isIdentifierStart c = true) :
    isIdentifierChar c = true := by
  simp only [isIdentifierStart, isIdentifierChar, isAlphanumeric, Bool.or_eq_true] at h ⊢
  rcases h with (h | h) | h
  · exact .inl (.inl (.inl h))
  · exact .inl (.inr h)
  · exact .inr h

theorem not_isIdentifierStart {c : Char} (h : isIdentifierChar c = false) :
    isIdentifierStart c = false :=
  Bool.eq_false_iff.2 fun hstart =>
    Bool.false_ne_true (h.symm.trans (isIdentifierChar_of_isIdentifierStart hstart))

theorem isIdentifierChar_of_blank {c : Char} (h : isBlank c = true ∨ c.toNat = 0xFEFF) :
    isIdentifierChar c = false := by
  by_contra hchar
  rw [Bool.not_eq_false] at hchar
  simp only [isIdentifierChar, isAlphanumeric_of_blank h, Bool.false_or, Bool.or_eq_true,
    beq_iff_eq] at hchar
  rcases hchar with rfl | rfl <;> exact absurd h (by decide)

/-- No identifier has blanks, quotes and dots. -/
theorem of_isIdentifierChar {c : Char} (h : isIdentifierChar c = true) :
    isBlank c = false ∧ isQuote c = false ∧ c ≠ '.' := by
  refine ⟨Bool.eq_false_iff.2 fun hblank => ?_, ?_, ?_⟩
  · exact Bool.false_ne_true ((isIdentifierChar_of_blank (.inl hblank)).symm.trans h)
  · by_contra hquote
    simp only [isQuote, Bool.not_eq_false, Bool.or_eq_true, beq_iff_eq] at hquote
    rcases hquote with (rfl | rfl) | rfl <;> exact absurd h (by decide)
  · rintro rfl
    exact absurd h (by decide)

theorem of_isQuote {c : Char} (h : isQuote c = true) :
    isBlank c = false ∧ isIdentifierChar c = false ∧ c ≠ '.' ∧ c ≠ '\\' := by
  simp only [isQuote, Bool.or_eq_true, beq_iff_eq] at h
  rcases h with (rfl | rfl) | rfl <;> decide

/-! ### Places -/

/-- How a place in a text is quoted. -/
inductive Quoting where
  /-- Outside of strings. -/
  | outside
  /-- In a string with a given quote. -/
  | inside (quote : Char)
  /-- In such a string, behind a backslash. -/
  | escaped (quote : Char)
  deriving DecidableEq

/-- How the place behind a character is quoted. -/
def Quoting.next : Quoting → Char → Quoting
  | outside, c => if isQuote c then inside c else outside
  | inside quote, c =>
    if c == '\\' then escaped quote else if c == quote then outside else inside quote
  | escaped quote, _ => inside quote

/-- How the end of a text is quoted. -/
def quotingBehind (text : List Char) : Quoting :=
  text.foldl Quoting.next .outside

/-- The places in a text behind `before`, each with what stands in front of it and behind it. -/
def placesFrom (before : List Char) : List Char → List (List Char × List Char)
  | [] => []
  | c :: cs => (before, c :: cs) :: placesFrom (before ++ [c]) cs

theorem mem_placesFrom {before text front rest : List Char} :
    (front, rest) ∈ placesFrom before text ↔
      ∃ passed, front = before ++ passed ∧ text = passed ++ rest ∧ rest ≠ [] := by
  induction text generalizing before with
  | nil => simp [placesFrom]
  | cons c cs ih =>
    rw [placesFrom, List.mem_cons, ih]
    constructor
    · rintro (heq | ⟨passed, rfl, rfl, hne⟩)
      · cases heq
        exact ⟨[], by simp⟩
      · exact ⟨c :: passed, by simp [hne]⟩
    · rintro ⟨_ | ⟨d, passed⟩, rfl, hcs, hne⟩
      · exact .inl (by simp_all)
      · obtain ⟨rfl, rfl⟩ := List.cons.inj hcs
        exact .inr ⟨passed, by simp, rfl, hne⟩

/-! ### Free identifiers -/

/-- Whether a place is outside of strings and in front of a character that may begin an
    identifier. -/
def mayStart (before rest : List Char) : Bool :=
  quotingBehind before == .outside && rest.head?.any isIdentifierStart

/-- Whether the last characters of a text that are not blank are the three dots of a spread. -/
def endsSpread (before : List Char) : Bool :=
  "...".toList.isSuffixOf (trimRight before)

/-- Whether the last character of a text that is not blank is the dot of a member. -/
def endsMember (before : List Char) : Bool :=
  (trimRight before).getLast? == some '.' && !endsSpread before

/-- Whether a free identifier starts at a place. -/
def startsFree (before rest : List Char) : Bool :=
  mayStart before rest && !before.getLast?.any isIdentifierChar && !endsMember before

/-- The runs of identifier characters that start at the places of a class. -/
def runsAt (starts : List Char → List Char → Bool) (places : List (List Char × List Char)) :
    List (List Char) :=
  places.filterMap fun (before, rest) =>
    if starts before rest then some (rest.takeWhile isIdentifierChar) else none

/-- The free identifiers of a text, in their order. -/
def freeIdentifiers (text : List Char) : List (List Char) :=
  runsAt startsFree (placesFrom [] text)

theorem takeWhile_head?_eq_nil {p : Char → Bool} {cs : List Char} (h : cs.head?.any p = false) :
    cs.takeWhile p = [] := by
  cases cs with
  | nil => rfl
  | cons c cs => exact List.takeWhile_cons_of_neg (Bool.eq_false_iff.1 h)

theorem any_head?_dropWhile (p : Char → Bool) (cs : List Char) :
    (cs.dropWhile p).head?.any p = false := by
  have hnot := List.head?_dropWhile_not p cs
  cases hhead : (cs.dropWhile p).head? with
  | none => rfl
  | some c =>
    rw [hhead] at hnot
    exact hnot

/-- A free identifier is a run of identifier characters that cannot be made longer, which stands
    outside of strings, has a first character that may begin it, and is not the name of a member. -/
theorem mem_freeIdentifiers {text name : List Char} :
    name ∈ freeIdentifiers text ↔
      ∃ before rest, text = before ++ (name ++ rest) ∧
        (∀ c ∈ name, isIdentifierChar c = true) ∧ name.head?.any isIdentifierStart = true ∧
        before.getLast?.any isIdentifierChar = false ∧ rest.head?.any isIdentifierChar = false ∧
        quotingBehind before = .outside ∧ endsMember before = false := by
  simp only [freeIdentifiers, runsAt, List.mem_filterMap, Prod.exists,
    Option.ite_none_right_eq_some, Option.some.injEq, startsFree, mayStart, Bool.and_eq_true,
    Bool.not_eq_true', beq_iff_eq]
  constructor
  · rintro ⟨before, cs, hplace, ⟨⟨⟨hquoting, hstart⟩, hbefore⟩, hmember⟩, rfl⟩
    obtain ⟨passed, hpassed, rfl, hne⟩ := mem_placesFrom.1 hplace
    obtain rfl : before = passed := hpassed
    refine ⟨before, cs.dropWhile isIdentifierChar, ?_, fun c hc => List.mem_takeWhile_imp hc, ?_,
      hbefore, any_head?_dropWhile _ _, hquoting, hmember⟩
    · rw [List.takeWhile_append_dropWhile]
    · obtain ⟨c, cs, rfl⟩ := List.exists_cons_of_ne_nil hne
      have hc : isIdentifierStart c = true := hstart
      rw [List.takeWhile_cons_of_pos (isIdentifierChar_of_isIdentifierStart hc)]
      exact hc
  · rintro ⟨before, rest, rfl, hname, hstart, hbefore, hrest, hquoting, hmember⟩
    obtain ⟨c, name, rfl⟩ : ∃ c cs, name = c :: cs := by
      cases name with
      | nil => cases hstart
      | cons c cs => exact ⟨c, cs, rfl⟩
    refine ⟨before, c :: name ++ rest, mem_placesFrom.2 ⟨before, rfl, rfl, by simp⟩,
      ⟨⟨⟨hquoting, hstart⟩, hbefore⟩, hmember⟩, ?_⟩
    rw [List.takeWhile_append_of_pos hname, takeWhile_head?_eq_nil hrest, List.append_nil]

/-! ### Identifiers as they are read -/

/-- The identifier characters at the end of a text, the last one first. -/
def runBefore (before : List Char) : List Char :=
  before.reverse.takeWhile isIdentifierChar

/-- Whether the reader takes an identifier from a place on. -/
def startsRead (before rest : List Char) : Bool :=
  mayStart before rest && !(runBefore before).any isIdentifierStart &&
    !(trimRight before).getLast? == some '.'

/-- The identifiers of a text that the reader finds, in their order. -/
def readIdentifiers (text : List Char) : List (List Char) :=
  runsAt startsRead (placesFrom [] text)

/-! ### What stands in front of a place -/

theorem quotingBehind_append (before passed : List Char) :
    quotingBehind (before ++ passed) = passed.foldl Quoting.next (quotingBehind before) :=
  List.foldl_append

theorem foldl_next_of_isIdentifierChar {passed : List Char}
    (h : ∀ c ∈ passed, isIdentifierChar c = true) :
    passed.foldl Quoting.next .outside = .outside := by
  induction passed with
  | nil => rfl
  | cons c passed ih =>
    obtain ⟨hc, hpassed⟩ := List.forall_mem_cons.1 h
    rw [List.foldl_cons, Quoting.next, (of_isIdentifierChar hc).2.1]
    exact ih hpassed

theorem trimRight_concat {c : Char} (h : isBlank c = false) (before : List Char) :
    trimRight (before ++ [c]) = before ++ [c] := by
  simp [trimRight, h]

theorem trimRight_concat_blank {c : Char} (h : isBlank c = true) (before : List Char) :
    trimRight (before ++ [c]) = trimRight before := by
  simp [trimRight, h]

theorem runBefore_append {passed : List Char} (h : ∀ c ∈ passed, isIdentifierChar c = true)
    (before : List Char) : runBefore (before ++ passed) = passed.reverse ++ runBefore before := by
  rw [runBefore, List.reverse_append, List.takeWhile_append_of_pos]
  · rfl
  · exact fun c hc => h c (List.mem_reverse.1 hc)

theorem runBefore_concat {c : Char} (h : isIdentifierChar c = false) (before : List Char) :
    runBefore (before ++ [c]) = [] := by
  simp [runBefore, h]

theorem runsAt_cons_of_not {starts : List Char → List Char → Bool} {before cs : List Char}
    {c : Char} (h : starts before (c :: cs) = false) :
    runsAt starts (placesFrom before (c :: cs)) = runsAt starts (placesFrom (before ++ [c]) cs) :=
  List.filterMap_cons_none (if_neg (Bool.eq_false_iff.1 h))

/-- Places where nothing starts are passed over. -/
theorem runsAt_append {starts : List Char → List Char → Bool} {before passed rest : List Char}
    (h : ∀ front c behind, passed = front ++ c :: behind →
      starts (before ++ front) (c :: behind ++ rest) = false) :
    runsAt starts (placesFrom before (passed ++ rest)) =
      runsAt starts (placesFrom (before ++ passed) rest) := by
  induction passed generalizing before with
  | nil => rw [List.nil_append, List.append_nil]
  | cons c passed ih =>
    have hc := h [] c passed rfl
    rw [List.append_nil] at hc
    have hrest := @ih (before ++ [c]) fun front d behind heq => by
      rw [List.append_assoc]
      exact h (c :: front) d behind (congrArg (c :: ·) heq)
    rw [List.append_assoc] at hrest
    exact (runsAt_cons_of_not hc).trans hrest

theorem startsRead_of_not_start {c : Char} (h : isIdentifierStart c = false)
    (before rest : List Char) : startsRead before (c :: rest) = false := by
  simp [startsRead, mayStart, h]

/-- A string is passed over up to its closing quote, or up to the end of the text. -/
theorem exists_skipString_quoting {quote : Char} (hquote : quote ≠ '\\') (cs : List Char) :
    ∃ passed, cs = passed ++ skipString quote cs ∧
      (∀ front c behind, passed = front ++ c :: behind →
        front.foldl Quoting.next (.inside quote) ≠ .outside) ∧
      (skipString quote cs ≠ [] → ∃ body, passed = body ++ [quote] ∧
        passed.foldl Quoting.next (.inside quote) = .outside) := by
  fun_induction skipString quote cs with
  | case1 => exact ⟨[], rfl, by simp, fun h => absurd rfl h⟩
  | case2 c cs ih =>
    obtain ⟨passed, hcs, hinside, hbehind⟩ := ih
    refine ⟨'\\' :: c :: passed, congrArg ('\\' :: c :: ·) hcs, fun front d behind heq => ?_,
      fun hne => ?_⟩
    · rcases front with _ | ⟨e, _ | ⟨e', front⟩⟩
      · simp
      · obtain ⟨rfl, -⟩ := List.cons.inj heq
        simp [Quoting.next]
      · obtain ⟨rfl, hbody⟩ := List.cons.inj heq
        obtain ⟨rfl, hmore⟩ := List.cons.inj hbody
        exact hinside front d behind hmore
    · obtain ⟨body, rfl, hpassed⟩ := hbehind hne
      exact ⟨'\\' :: c :: body, rfl, hpassed⟩
  | case3 c cs _ hc =>
    obtain rfl := LawfulBEq.eq_of_beq hc
    refine ⟨[c], rfl, fun front d behind heq => ?_, fun _ => ⟨[], rfl, ?_⟩⟩
    · rcases front with _ | ⟨e, front⟩
      · simp
      · cases front <;> cases heq
    · simp [Quoting.next, hquote]
  | case4 c cs hescape hc ih =>
    obtain ⟨passed, hcs, hinside, hbehind⟩ := ih
    by_cases hslash : c = '\\'
    · -- A backslash at the end of the text.
      subst hslash
      rcases cs with _ | ⟨d, cs⟩
      · refine ⟨['\\'], rfl, fun front d behind heq => ?_, fun h => absurd rfl h⟩
        rcases front with _ | ⟨e, front⟩
        · simp
        · cases front <;> cases heq
      · exact absurd rfl (hescape d cs rfl)
    · have hnext : Quoting.next (.inside quote) c = .inside quote := by
        simp only [Quoting.next, beq_iff_eq, hslash, if_false]
        exact if_neg (mt beq_iff_eq.2 hc)
      refine ⟨c :: passed, congrArg (c :: ·) hcs, fun front d behind heq => ?_, fun hne => ?_⟩
      · rcases front with _ | ⟨e, front⟩
        · simp
        · obtain ⟨rfl, hmore⟩ := List.cons.inj heq
          rw [List.foldl_cons, hnext]
          exact hinside front d behind hmore
      · obtain ⟨body, rfl, hpassed⟩ := hbehind hne
        exact ⟨c :: body, rfl, by rw [List.foldl_cons, hnext, hpassed]⟩

/-! ### The reader -/

/-- The reader stands outside of strings and not inside of an identifier, and it knows whether a dot
    stands in front of it. -/
structure Reads (afterDot : Bool) (before rest : List Char) : Prop where
  quoting : quotingBehind before = .outside
  dot : afterDot = ((trimRight before).getLast? == some '.')
  run : (runBefore before).any isIdentifierStart = true → rest.head?.any isIdentifierChar = false

namespace Reads

variable {afterDot : Bool} {before rest cs : List Char} {c : Char}

/-- Behind an identifier. -/
theorem behindName (h : Reads afterDot before (c :: cs)) (hstart : isIdentifierStart c = true) :
    Reads false (before ++ c :: cs.takeWhile isIdentifierChar) (cs.dropWhile isIdentifierChar) := by
  have hname : ∀ d ∈ c :: cs.takeWhile isIdentifierChar, isIdentifierChar d = true :=
    List.forall_mem_cons.2 ⟨isIdentifierChar_of_isIdentifierStart hstart,
      fun d hd => List.mem_takeWhile_imp hd⟩
  refine ⟨?_, ?_, fun _ => ?_⟩
  · rw [quotingBehind_append, h.quoting, foldl_next_of_isIdentifierChar hname]
  · obtain ⟨body, d, hbody⟩ :=
      (List.eq_nil_or_concat (c :: cs.takeWhile isIdentifierChar)).resolve_left (by simp)
    rw [List.concat_eq_append] at hbody
    have hd := of_isIdentifierChar (hname d (by simp [hbody]))
    rw [hbody, ← List.append_assoc, trimRight_concat hd.1, List.getLast?_concat]
    simp [hd.2.2]
  · exact any_head?_dropWhile _ _

/-- Behind any other character outside of strings. -/
theorem other (h : Reads afterDot before (c :: cs)) (hquote : isQuote c = false)
    (hstart : isIdentifierStart c = false) :
    Reads (if isBlank c then afterDot else c == '.') (before ++ [c]) cs where
  quoting := by
    rw [quotingBehind_append, h.quoting, List.foldl_cons, List.foldl_nil, Quoting.next, hquote]
    rfl
  dot := by
    split
    · rename_i hblank
      rw [trimRight_concat_blank hblank, h.dot]
    · rename_i hblank
      rw [trimRight_concat (Bool.eq_false_iff.2 hblank), List.getLast?_concat]
      rfl
  run hrun := by
    by_cases hc : isIdentifierChar c = true
    · rw [runBefore_append (List.forall_mem_singleton.2 hc), List.reverse_singleton,
        List.singleton_append, List.any_cons, hstart, Bool.false_or] at hrun
      exact absurd (h.run hrun) (by simp [hc])
    · rw [runBefore_concat (Bool.eq_false_iff.2 hc)] at hrun
      cases hrun

end Reads

/-- In front of an identifier: the reader takes it, unless it is the name of a member. -/
theorem Reads.runsAt_name {afterDot : Bool} {before cs : List Char} {c : Char}
    (h : Reads afterDot before (c :: cs)) (hstart : isIdentifierStart c = true) :
    runsAt startsRead (placesFrom before (c :: cs)) =
      (if afterDot then [] else [c :: cs.takeWhile isIdentifierChar]) ++
        runsAt startsRead (placesFrom (before ++ c :: cs.takeWhile isIdentifierChar)
          (cs.dropWhile isIdentifierChar)) := by
  have hc := isIdentifierChar_of_isIdentifierStart hstart
  have hrun : (runBefore before).any isIdentifierStart = false :=
    Bool.eq_false_iff.2 fun hrun => absurd (h.run hrun) (by simp [hc])
  have hstarts : startsRead before (c :: cs) = !afterDot := by
    simp [startsRead, mayStart, h.quoting, hstart, hrun, h.dot]
  have hinside : runsAt startsRead (placesFrom (before ++ [c]) cs) =
      runsAt startsRead (placesFrom (before ++ [c] ++ cs.takeWhile isIdentifierChar)
        (cs.dropWhile isIdentifierChar)) := by
    conv => lhs; rw [← List.takeWhile_append_dropWhile (p := isIdentifierChar) (l := cs)]
    refine runsAt_append fun front d behind heq => ?_
    have hfront : ∀ e ∈ c :: front, isIdentifierChar e = true := by
      refine List.forall_mem_cons.2 ⟨hc, fun e he => List.mem_takeWhile_imp (l := cs) ?_⟩
      rw [heq]
      exact List.mem_append_left _ he
    rw [List.append_assoc, List.singleton_append, startsRead, runBefore_append hfront]
    simp [hstart]
  rw [List.append_assoc, List.singleton_append] at hinside
  rw [placesFrom, ← hinside, runsAt, List.filterMap_cons]
  dsimp only
  rw [hstarts, List.takeWhile_cons_of_pos hc]
  cases afterDot <;> rfl

/-- Behind any text, the reader finds the identifiers that start where it takes one. -/
theorem map_name_occurrencesFrom {afterDot : Bool} {before rest : List Char}
    (h : Reads afterDot before rest) :
    (occurrencesFrom afterDot rest).map Occurrence.name =
      runsAt startsRead (placesFrom before rest) := by
  fun_induction occurrencesFrom afterDot rest generalizing before with
  | case1 => rfl
  | case2 afterDot c cs hquote ih =>
    obtain ⟨hblank, hc, hdot, hslash⟩ := of_isQuote hquote
    obtain ⟨passed, hcs, hinside, hbehind⟩ := exists_skipString_quoting hslash cs
    have hsplit : c :: cs = (c :: passed) ++ skipString c cs := congrArg (c :: ·) hcs
    have hopen (front : List Char) : quotingBehind (before ++ c :: front) =
        front.foldl Quoting.next (.inside c) := by
      rw [quotingBehind_append, h.quoting, List.foldl_cons, Quoting.next, if_pos hquote]
    rw [hsplit, runsAt_append]
    · by_cases hne : skipString c cs = []
      · rw [hne, occurrencesFrom]
        rfl
      obtain ⟨body, rfl, houtside⟩ := hbehind hne
      have hassoc : before ++ c :: (body ++ [c]) = (before ++ c :: body) ++ [c] := by simp
      refine ih ⟨(hopen _).trans houtside, ?_, fun hrun => ?_⟩
      · rw [hassoc, trimRight_concat hblank, List.getLast?_concat]
        simp [hdot]
      · rw [hassoc, runBefore_concat hc] at hrun
        cases hrun
    · intro front d behind heq
      rcases front with _ | ⟨e, front⟩
      · obtain ⟨rfl, -⟩ := List.cons.inj heq
        exact startsRead_of_not_start (not_isIdentifierStart hc) _ _
      · obtain ⟨rfl, hmore⟩ := List.cons.inj heq
        have hne := hinside front d behind hmore
        rw [← hopen] at hne
        simp [startsRead, mayStart, hne]
  | case3 c cs _ hstart rest =>
    rename_i ih
    rw [h.runsAt_name hstart, if_pos rfl, List.nil_append]
    exact ih (h.behindName hstart)
  | case4 afterDot c cs _ hstart rest hdot =>
    rename_i ih
    rw [h.runsAt_name hstart, if_neg hdot, List.map_cons]
    exact congrArg (_ :: ·) (ih (h.behindName hstart))
  | case5 afterDot c cs hquote hstart hblank ih =>
    have hnext := h.other (Bool.eq_false_iff.2 hquote) (Bool.eq_false_iff.2 hstart)
    rw [if_pos hblank] at hnext
    rw [ih hnext]
    exact (runsAt_cons_of_not (startsRead_of_not_start (Bool.eq_false_iff.2 hstart) _ _)).symm
  | case6 afterDot c cs hquote hstart hblank ih =>
    have hnext := h.other (Bool.eq_false_iff.2 hquote) (Bool.eq_false_iff.2 hstart)
    rw [if_neg hblank] at hnext
    rw [ih hnext]
    exact (runsAt_cons_of_not (startsRead_of_not_start (Bool.eq_false_iff.2 hstart) _ _)).symm

/-- The identifiers of an expression are those that the reader takes at its places. -/
theorem identifiers_eq_read (expression : String) :
    identifiers expression = (readIdentifiers expression.toList).map String.ofList := by
  have hstart : Reads false [] expression.toList := ⟨rfl, rfl, fun h => by cases h⟩
  have hread := map_name_occurrencesFrom hstart
  rw [readIdentifiers, ← hread, List.map_map]
  rfl

/-! ### Where they are the free ones -/

/-- Whether a character that may begin an identifier goes on a run that no identifier begins, like
    the letter of a number. -/
def goesOn (before rest : List Char) : Bool :=
  mayStart before rest && !(runBefore before).isEmpty && !(runBefore before).any isIdentifierStart

/-- Whether an identifier stands behind the dots of a spread. -/
def followsSpread (before rest : List Char) : Bool :=
  mayStart before rest && endsSpread before

/-- Whether a text has neither numbers with letters nor identifiers behind a spread. -/
def IsRegular (text : List Char) : Prop :=
  ∀ place ∈ placesFrom [] text,
    goesOn place.1 place.2 = false ∧ followsSpread place.1 place.2 = false

theorem getLast?_any_eq (before : List Char) :
    before.getLast?.any isIdentifierChar = !(runBefore before).isEmpty := by
  rw [runBefore, ← List.head?_reverse]
  cases before.reverse with
  | nil => rfl
  | cons c cs => cases hc : isIdentifierChar c <;> simp [hc]

theorem startsFree_eq_startsRead {before rest : List Char} (hrun : goesOn before rest = false)
    (hspread : followsSpread before rest = false) :
    startsFree before rest = startsRead before rest := by
  have hempty : (runBefore before).isEmpty = true →
      (runBefore before).any isIdentifierStart = false := by
    rw [List.isEmpty_iff]
    rintro hnil
    rw [hnil]
    rfl
  rw [goesOn] at hrun
  rw [followsSpread] at hspread
  rw [startsFree, startsRead, endsMember, getLast?_any_eq]
  cases hstart : mayStart before rest with
  | false => rfl
  | true =>
    rw [hstart, Bool.true_and] at hrun hspread
    rw [hspread]
    cases hrunEmpty : (runBefore before).isEmpty with
    | true =>
      rw [hempty hrunEmpty]
      simp
    | false =>
      rw [hrunEmpty, Bool.not_false, Bool.true_and, Bool.not_eq_false'] at hrun
      rw [hrun]
      simp

/-- The identifiers of an expression are its free identifiers, in their order, if it has neither
    numbers with letters nor identifiers behind a spread. -/
theorem identifiers_eq_free {expression : String} (h : IsRegular expression.toList) :
    identifiers expression = (freeIdentifiers expression.toList).map String.ofList := by
  rw [identifiers_eq_read, readIdentifiers, freeIdentifiers]
  refine congrArg _ (List.filterMap_congr fun ⟨before, rest⟩ hplace => ?_)
  obtain ⟨hrun, hspread⟩ := h _ hplace
  have hstarts : startsFree before rest = startsRead before rest :=
    startsFree_eq_startsRead hrun hspread
  dsimp only
  rw [hstarts]

/-- Members, strings and escaped quotes. -/
theorem identifiers_eq_free_members :
    freeIdentifiers "user?.isActive && 'x \\' y' !== $foo [b1] . c".toList =
      ["user".toList, "$foo".toList, "b1".toList] ∧
    identifiers "user?.isActive && 'x \\' y' !== $foo [b1] . c" = ["user", "$foo", "b1"] := by
  have hfree : freeIdentifiers "user?.isActive && 'x \\' y' !== $foo [b1] . c".toList =
      ["user".toList, "$foo".toList, "b1".toList] := by
    decide +kernel
  refine ⟨hfree, ?_⟩
  rw [identifiers_eq_free, hfree]
  · rfl
  · rw [IsRegular]
    decide +kernel

/-- An identifier behind a spread is free, but the reader takes it for the name of a member; and it
    takes the letter of a number for an identifier. -/
theorem identifiers_ne_free :
    (freeIdentifiers "[...items]".toList = ["items".toList] ∧ identifiers "[...items]" = []) ∧
      freeIdentifiers "1e5".toList = [] ∧ identifiers "1e5" = ["e5"] := by
  rw [identifiers_eq_read, identifiers_eq_read]
  decide +kernel

end PugLint.Expression
