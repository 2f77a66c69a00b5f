import PugLint.Proofs.Token.Paths

/-!
# How attributes are read

An attribute is its name, plain or in quotes, and where a sign follows, a value. This module
says so without places: which name a text starts with, which sign, which value. What stands
behind an attribute matters only as far as it ends it, and a plain run of characters inside of
a name or a value may be exchanged for another one.

* `Lexer.NameAt`, `Lexer.AttributeAt`: a name, and an attribute;
* `Lexer.ReadsAttribute.attributeAt`, `Lexer.AttributeAt.readsAttribute`: the reader reads these
  and no others;
* `Lexer.AttributeAt.congr`: another text behind an attribute;
* `Lexer.AttributeAt.rename`, `Lexer.AttributeAt.revalue`: another name, and another value.
-/

namespace PugLint

namespace Lexer

/-! ### Names and signs -/

/-- A name at the start of a text: what it is, how it is shown, and what stands behind it. -/
inductive NameAt : List Char → List Char → List Char → Prop where
  | quoted {quote : Char} {name behind : List Char} (hquote : quote = '"' ∨ quote = '\'')
      (h : scanString quote (name ++ [quote] ++ behind) = some (name ++ [quote], behind)) :
      NameAt name (quote :: (name ++ [quote])) behind
  | plain {name behind : List Char} (hne : name ≠ [])
      (hhead : ∀ c ∈ name.head?, c ≠ '"' ∧ c ≠ '\'')
      (h : scanName 0 (name ++ behind) = (name, behind)) : NameAt name name behind

theorem nameAt_of_readName {place : Position} {cs name shown behind : List Char}
    (h : readName ⟨place, cs⟩ = .ok (name, shown, behind)) :
    cs = shown ++ behind ∧ NameAt name shown behind := by
  rw [readName] at h
  split at h
  · rename_i c ds hcs
    dsimp only at hcs
    subst hcs
    split at h
    · rename_i hc
      split at h
      · rename_i taken rest hs
        obtain ⟨rfl, body, rfl⟩ := eq_append_of_scanString hs
        cases h
        rw [List.dropLast_concat]
        simp only [Bool.or_eq_true, beq_iff_eq] at hc
        exact ⟨rfl, .quoted hc hs⟩
      · cases h
    · rename_i hc
      dsimp only at h
      split at h
      · cases h
      · rename_i hne
        cases h
        have happend := scanName_append 0 (c :: ds)
        refine ⟨happend.symm, .plain (by simpa using hne) ?_ (by rw [happend])⟩
        intro d hd
        obtain ⟨more, hmore⟩ := List.head?_eq_some_iff.1 hd
        rw [hmore, List.cons_append] at happend
        obtain rfl := (List.cons.inj happend).1
        simpa using hc
  · cases h

theorem NameAt.ne_nil {name shown behind : List Char} (h : NameAt name shown behind) :
    shown ≠ [] := by
  cases h with
  | quoted => exact List.cons_ne_nil _ _
  | plain hne => exact hne

theorem NameAt.readName {name shown behind : List Char} (h : NameAt name shown behind)
    (place : Position) : readName ⟨place, shown ++ behind⟩ = .ok (name, shown, behind) := by
  cases h with
  | @quoted quote _ _ hquote h =>
    have hc : (quote == '"' || quote == '\'') = true := by simpa using hquote
    rw [Lexer.readName]
    dsimp only [List.cons_append]
    rw [if_pos hc, h]
    dsimp only
    rw [List.dropLast_concat]
  | plain hne hhead h =>
    rcases name with _ | ⟨c, cs⟩
    · exact absurd rfl hne
    · have hc : ¬(c == '"' || c == '\'') = true := by simpa using hhead c rfl
      rw [List.cons_append] at h
      rw [Lexer.readName]
      dsimp only [List.cons_append]
      rw [if_neg hc, h]
      rfl

/-- The sign between a name and a value, with the blanks in front of it. -/
def IsSign (sign : List Char) (escaped : Bool) : Prop :=
  ∃ blanks, (∀ c ∈ blanks, isInlineBlank c = true) ∧ sign = blanks ++ assignment escaped

theorem IsSign.scanAssignment {sign : List Char} {escaped : Bool} (h : IsSign sign escaped)
    (rest : List Char) :
    scanAssignment (sign ++ rest) = some (sign, escaped, rest) := by
  obtain ⟨blanks, hblanks, rfl⟩ := h
  have hhead : ∀ c ∈ (assignment escaped ++ rest).head?, isInlineBlank c = false := by
    cases escaped <;> (rintro c ⟨⟩; rfl)
  obtain ⟨htake, hdrop⟩ := takeWhile_append_stop hblanks hhead
  rw [List.append_assoc]
  unfold Lexer.scanAssignment
  rw [htake, hdrop]
  cases escaped <;> rfl

theorem IsSign.length_pos {sign : List Char} {escaped : Bool} (h : IsSign sign escaped) :
    0 < sign.length := by
  obtain ⟨blanks, -, rfl⟩ := h
  cases escaped <;> simp [assignment]

theorem isSign_of_scanAssignment {cs sign rest : List Char} {escaped : Bool}
    (h : scanAssignment cs = some (sign, escaped, rest)) :
    cs = sign ++ rest ∧ IsSign sign escaped :=
  scanAssignment_eq h

/-- A value at the start of a text, whatever its place. -/
def ValueAt (value rest : List Char) : Prop :=
  ∀ place, scanValue 0 .outside place (value ++ rest) = .ok (value, rest)

/-! ### Attributes -/

/-- An attribute at the start of a text. -/
inductive AttributeAt : TokenKind → List Char → List Char → Prop where
  | bare {name shown rest : List Char} (hname : NameAt name shown rest)
      (hsign : scanAssignment rest = none) :
      AttributeAt (.attribute (String.ofList name) none true) shown rest
  | valued {name shown sign blanks value rest : List Char} {escaped : Bool}
      (hname : NameAt name shown (sign ++ (blanks ++ (value ++ rest))))
      (hsign : IsSign sign escaped) (hblanks : ∀ c ∈ blanks, isInlineBlank c = true)
      (hhead : ∀ c ∈ (value ++ rest).head?, isInlineBlank c = false)
      (hvalue : ValueAt value rest) (hne : value ≠ []) :
      AttributeAt (.attribute (String.ofList name) (some (String.ofList value)) escaped)
        (shown ++ (sign ++ (blanks ++ value))) rest

theorem AttributeAt.ne_nil {kind : TokenKind} {written rest : List Char}
    (h : AttributeAt kind written rest) : written ≠ [] := by
  cases h with
  | bare hname => exact hname.ne_nil
  | valued hname => exact List.append_ne_nil_of_left_ne_nil hname.ne_nil _

theorem AttributeAt.readsAttribute {kind : TokenKind} {written rest : List Char}
    (h : AttributeAt kind written rest) : ReadsAttribute kind written rest := by
  intro place
  cases h with
  | bare hname hsign => exact readAttribute_bare (hname.readName place) hsign
  | @valued name shown sign blanks value _ escaped hname hsign hblanks hhead hvalue hne =>
    obtain ⟨htake, hdrop⟩ := takeWhile_append_stop hblanks hhead
    have htext : shown ++ (sign ++ (blanks ++ value)) ++ rest =
        shown ++ (sign ++ (blanks ++ (value ++ rest))) := by
      simp only [List.append_assoc]
    have hbefore : shown ++ (sign ++ (blanks ++ value)) = shown ++ sign ++ blanks ++ value := by
      simp only [List.append_assoc]
    rw [htext, hbefore]
    refine readAttribute_valued (hname.readName place) (hsign.scanAssignment _) ?_ ?_ hne
    · rw [htake]
    · rw [hdrop]
      exact hvalue _

theorem ReadsAttribute.attributeAt {kind : TokenKind} {written rest : List Char}
    (h : ReadsAttribute kind written rest) : AttributeAt kind written rest := by
  obtain ⟨name, shown, behind, hread, hcases⟩ := readAttribute_cases (h .first)
  obtain ⟨htext, hname⟩ := nameAt_of_readName hread
  obtain ⟨hsign, htoken, hstop⟩ |
    ⟨sign, escaped, left, before, value, rest', hassign, rfl, hscan, hne, htoken, hstop⟩ := hcases
  · obtain rfl : rest = behind := congrArg Cursor.rest hstop
    obtain rfl := congrArg Token.kind htoken
    obtain rfl := List.append_cancel_right htext
    exact .bare hname hsign
  · obtain rfl : rest = rest' := congrArg Cursor.rest hstop
    obtain rfl := congrArg Token.kind htoken
    obtain ⟨rfl, hsign⟩ := isSign_of_scanAssignment hassign
    have hrest := eq_append_of_scanValue hscan
    have hleft : left = left.takeWhile isInlineBlank ++ (value ++ rest) := by
      rw [← hrest, List.takeWhile_append_dropWhile]
    have hhead : ∀ c ∈ (value ++ rest).head?, isInlineBlank c = false := by
      rw [← hrest]
      exact head?_dropWhile_eq_false _ _
    have hvalue : ValueAt value rest := fun place => scanValue_append hscan rfl (.inl rfl) place
    rw [hleft] at htext hname
    obtain rfl : written = shown ++ (sign ++ (left.takeWhile isInlineBlank ++ value)) := by
      refine List.append_cancel_right (htext.trans ?_)
      simp only [List.append_assoc]
    exact .valued hname hsign (fun c hc => List.mem_takeWhile_imp hc) hhead hvalue hne

/-! ### Another text behind an attribute -/

/-- A plain name ends in front of a character, by the open brackets and the character
    behind it. -/
def endsName (depth : Nat) (c : Char) (next : Option Char) : Bool :=
  c == '\n' || c == '\r' ||
    (depth == 0 && (c == ' ' || c == '\t' || c == '=' || c == ',' || c == ')' ||
      (c == '!' && next == some '=')))

/-- The open brackets behind a character. -/
def bracketDepth (depth : Nat) (c : Char) : Nat :=
  if c == '[' then depth + 1 else if c == ']' then depth - 1 else depth

theorem scanName_cons (depth : Nat) (c : Char) (cs : List Char) :
    scanName depth (c :: cs) =
      if endsName depth c cs.head? then ([], c :: cs)
      else (c :: (scanName (bracketDepth depth c) cs).1, (scanName (bracketDepth depth c) cs).2) :=
  rfl

theorem scanName_eq_cons_iff {depth : Nat} {c : Char} {cs name rest : List Char} :
    scanName depth (c :: cs) = (c :: name, rest) ↔
      endsName depth c cs.head? = false ∧
        scanName (bracketDepth depth c) cs = (name, rest) := by
  rw [scanName_cons]
  split
  · rename_i hends
    exact ⟨fun h => (nomatch congrArg Prod.fst h), fun h => (nomatch hends.symm.trans h.1)⟩
  · rename_i hends
    simp only [Prod.mk.injEq, List.cons.injEq, true_and, Bool.eq_false_iff.2 hends]
    exact ⟨fun h => Prod.ext h.1 h.2, fun h => ⟨congrArg Prod.fst h, congrArg Prod.snd h⟩⟩

/-- Two texts end a name alike: their first characters are the same, and where it is a `!`,
    either an equals sign follows in both or in none. -/
def EndsAlike (rest rest' : List Char) : Prop :=
  ∃ c cs cs', rest = c :: cs ∧ rest' = c :: cs' ∧
    (c = '!' → (cs.head? = some '=' ↔ cs'.head? = some '='))

theorem EndsAlike.endsName_eq {rest rest' : List Char} (h : EndsAlike rest rest') (depth : Nat)
    {c : Char} (name : List Char) :
    endsName depth c (name ++ rest').head? = endsName depth c (name ++ rest).head? := by
  obtain ⟨d, ds, ds', rfl, rfl, -⟩ := h
  rcases name with _ | ⟨e, name⟩ <;> rfl

theorem scanName_congr {depth : Nat} {name rest rest' : List Char}
    (h : scanName depth (name ++ rest) = (name, rest)) (hends : EndsAlike rest rest') :
    scanName depth (name ++ rest') = (name, rest') := by
  induction name generalizing depth with
  | nil =>
    obtain ⟨c, cs, cs', rfl, rfl, hequals⟩ := hends
    rw [List.nil_append, scanName_cons] at h ⊢
    split at h
    · rename_i hends
      rw [if_pos]
      by_cases hc : c = '!'
      · have hsame : (cs'.head? == some '=') = (cs.head? == some '=') := by
          rw [Bool.eq_iff_iff, beq_iff_eq, beq_iff_eq, hequals hc]
        rwa [endsName, hsame]
      · have hne : (c == '!') = false := beq_eq_false_iff_ne.2 hc
        rw [endsName, hne, Bool.false_and] at hends ⊢
        exact hends
    · cases h
  | cons c name ih =>
    rw [List.cons_append, scanName_eq_cons_iff] at h ⊢
    rw [hends.endsName_eq]
    exact ⟨h.1, ih h.2⟩

theorem scanString_congr {quote : Char} {taken cs rest : List Char} (hquote : quote ≠ '\\')
    (h : scanString quote cs = some (taken, rest)) (rest' : List Char) :
    scanString quote (taken ++ rest') = some (taken, rest') := by
  fun_induction scanString quote cs generalizing taken with
  | case1 => cases h
  | case2 c cs ih =>
    obtain ⟨⟨more, rest''⟩, hs, heq⟩ := Option.map_eq_some_iff.1 h
    cases heq
    rw [List.cons_append, List.cons_append, scanString, ih hs]
    rfl
  | case3 c cs _ hc =>
    cases h
    rw [List.singleton_append, scanString, if_pos hc]
    rintro d ds rfl
    exact absurd (LawfulBEq.eq_of_beq hc).symm hquote
  | case4 c cs hnot hc ih =>
    obtain ⟨⟨more, rest''⟩, hs, heq⟩ := Option.map_eq_some_iff.1 h
    cases heq
    rw [List.cons_append, scanString, if_neg hc, ih hs]
    · rfl
    · rintro d ds rfl
      rcases cs with _ | ⟨e, es⟩
      · cases hs
      · exact absurd rfl (hnot e es rfl)

theorem NameAt.congr {name shown behind behind' : List Char} (h : NameAt name shown behind)
    (hends : EndsAlike behind behind') : NameAt name shown behind' := by
  cases h with
  | quoted hquote h =>
    exact .quoted hquote (scanString_congr (by rcases hquote with rfl | rfl <;> decide) h _)
  | plain hne hhead h => exact .plain hne hhead (scanName_congr h hends)

/-- Where a plain name ends, a character ends it. -/
theorem endsName_of_scanName {depth : Nat} {name rest : List Char}
    (h : scanName depth (name ++ rest) = (name, rest)) (hne : rest ≠ []) :
    ∃ depth' c cs, rest = c :: cs ∧ endsName depth' c cs.head? = true := by
  induction name generalizing depth with
  | nil =>
    rcases rest with _ | ⟨c, cs⟩
    · exact absurd rfl hne
    · rw [List.nil_append, scanName_cons] at h
      split at h
      · exact ⟨depth, c, cs, rfl, ‹_›⟩
      · cases h
  | cons c name ih =>
    rw [List.cons_append, scanName_eq_cons_iff] at h
    exact ih h.2

/-- An attribute may start here: with nothing that ends another one or gives it a value. -/
structure StartsAttribute (text : List Char) : Prop where
  /-- There is something. -/
  ne_nil : text ≠ []
  /-- Neither a separator nor the end of the list. -/
  head : ∀ c ∈ text.head?, isSeparator c = false ∧ c ≠ ')' ∧ c ≠ '='
  /-- No sign. -/
  sign : ¬['!', '='] <+: text

/-- Texts in a list of attributes that are the same up to the start of an attribute. -/
def Alike (rest rest' : List Char) : Prop :=
  ∃ front text text', rest = front ++ text ∧ rest' = front ++ text' ∧
    StartsAttribute text ∧ StartsAttribute text'

theorem StartsAttribute.endsName_eq_false {c : Char} {cs : List Char}
    (h : StartsAttribute (c :: cs)) (depth : Nat) : endsName depth c cs.head? = false := by
  obtain ⟨hseparator, hclose, hequals⟩ := h.head c rfl
  have hsign : (c == '!' && cs.head? == some '=') = false := by
    rw [Bool.eq_false_iff]
    intro hsign
    simp only [Bool.and_eq_true, beq_iff_eq] at hsign
    obtain ⟨rfl, hcs⟩ := hsign
    obtain ⟨ds, rfl⟩ := List.head?_eq_some_iff.1 hcs
    exact h.sign ⟨ds, rfl⟩
  simp only [isSeparator, Text.isAsciiBlank, Bool.or_eq_false_iff] at hseparator
  simp only [endsName, hseparator, hsign, beq_eq_false_iff_ne.2 hclose,
    beq_eq_false_iff_ne.2 hequals, Bool.or_false, Bool.and_false]

/-- Texts that start with the same two characters. -/
theorem endsAlike_append {front : List Char} (h : 2 ≤ front.length) (rest rest' : List Char) :
    EndsAlike (front ++ rest) (front ++ rest') := by
  rcases front with _ | ⟨c, _ | ⟨d, front⟩⟩
  · cases h
  · exact absurd h (Nat.not_succ_le_self 1)
  · exact ⟨c, d :: front ++ rest, d :: front ++ rest', rfl, rfl, fun _ => Iff.rfl⟩

namespace Alike

variable {rest rest' : List Char}

theorem prepend (h : Alike rest rest') (front : List Char) :
    Alike (front ++ rest) (front ++ rest') := by
  obtain ⟨middle, text, text', rfl, rfl, htext, htext'⟩ := h
  exact ⟨front ++ middle, text, text', (List.append_assoc ..).symm, (List.append_assoc ..).symm,
    htext, htext'⟩

theorem ne_nil (h : Alike rest rest') : rest ≠ [] ∧ rest' ≠ [] := by
  obtain ⟨front, text, text', rfl, rfl, htext, htext'⟩ := h
  exact ⟨List.append_ne_nil_of_right_ne_nil _ htext.ne_nil,
    List.append_ne_nil_of_right_ne_nil _ htext'.ne_nil⟩

/-- A first character that ends an attribute is the same. -/
theorem exists_cons {c : Char} {cs : List Char} (h : Alike (c :: cs) rest')
    (hc : ¬StartsAttribute (c :: cs)) :
    ∃ cs', rest' = c :: cs' ∧ (cs.head? = some '=' ↔ cs'.head? = some '=') := by
  obtain ⟨front, text, text', hrest, rfl, htext, htext'⟩ := h
  have hequals {text : List Char} (htext : StartsAttribute text) : ¬text.head? = some '=' :=
    fun h => (htext.head '=' h).2.2 rfl
  rcases front with _ | ⟨d, _ | ⟨e, front⟩⟩
  · exact absurd (hrest ▸ htext) hc
  · cases hrest
    exact ⟨text', rfl, iff_of_false (hequals htext) (hequals htext')⟩
  · cases hrest
    exact ⟨_, rfl, Iff.rfl⟩

theorem scanName {name : List Char} (h : Alike rest rest')
    (hname : Lexer.scanName 0 (name ++ rest) = (name, rest)) :
    Lexer.scanName 0 (name ++ rest') = (name, rest') := by
  obtain ⟨depth, c, cs, rfl, hends⟩ := endsName_of_scanName hname h.ne_nil.1
  obtain ⟨cs', rfl, hequals⟩ := h.exists_cons fun hstarts => by
    rw [hstarts.endsName_eq_false] at hends
    cases hends
  exact scanName_congr hname ⟨c, cs, cs', rfl, rfl, fun _ => hequals⟩

end Alike

/-- A text starts with the sign between a name and a value. -/
def StartsSign (text : List Char) : Prop :=
  ['='] <+: text ∨ ['!', '='] <+: text

theorem scanAssignment_eq_none_iff {cs : List Char} :
    scanAssignment cs = none ↔ ¬StartsSign (cs.dropWhile isInlineBlank) := by
  unfold scanAssignment
  generalize cs.dropWhile isInlineBlank = text
  dsimp only
  split
  · simp [StartsSign]
  · simp [StartsSign]
  · rename_i hequals hsign
    refine iff_of_true rfl ?_
    rintro (⟨rest, rfl⟩ | ⟨rest, rfl⟩)
    · exact hequals rest rfl
    · exact hsign rest rfl

theorem StartsAttribute.not_startsSign {text : List Char} (h : StartsAttribute text) :
    ¬StartsSign text := by
  rintro (⟨rest, rfl⟩ | hsign)
  · exact (h.head '=' rfl).2.2 rfl
  · exact h.sign hsign

theorem isSeparator_of_isInlineBlank {c : Char} (h : isInlineBlank c = true) :
    isSeparator c = true := by
  simp only [isInlineBlank, Bool.or_eq_true, beq_iff_eq] at h
  rcases h with rfl | rfl <;> rfl

theorem StartsAttribute.dropWhile_eq {text : List Char} (h : StartsAttribute text) :
    text.dropWhile isInlineBlank = text := by
  refine (takeWhile_append_stop (List.forall_mem_nil _) fun c hc => ?_).2
  rw [Bool.eq_false_iff]
  intro hblank
  have hseparator := isSeparator_of_isInlineBlank hblank
  rw [(h.head c hc).1] at hseparator
  cases hseparator

theorem Alike.scanAssignment_eq_none {rest rest' : List Char} (h : Alike rest rest')
    (hnone : scanAssignment rest = none) : scanAssignment rest' = none := by
  obtain ⟨front, text, text', rfl, rfl, htext, htext'⟩ := h
  rw [scanAssignment_eq_none_iff, List.dropWhile_append] at hnone ⊢
  rcases hfront : front.dropWhile isInlineBlank with _ | ⟨c, more⟩
  · rw [htext'.dropWhile_eq]
    exact htext'.not_startsSign
  -- A sign would start in the part that is the same, and end there.
  · rw [hfront] at hnone
    have hsign : ¬StartsSign (c :: (more ++ text)) := hnone
    change ¬StartsSign (c :: (more ++ text'))
    rintro (⟨ds, hds⟩ | ⟨ds, hds⟩)
    · cases hds
      exact hsign (.inl ⟨_, rfl⟩)
    · rcases more with _ | ⟨d, more⟩
      · cases hds
        exact (htext'.head '=' rfl).2.2 rfl
      · cases hds
        exact hsign (.inr ⟨_, rfl⟩)

/-- A value that does not end with the text ends in front of a character that ends
    values. -/
theorem endsValue_of_scanValue {depth : Nat} {quoting : Quoting} {p : Position}
    {cs value rest : List Char} (h : scanValue depth quoting p cs = .ok (value, rest))
    (hne : rest ≠ []) : EndsValue rest := by
  fun_induction scanValue depth quoting p cs generalizing value with
  | case1 =>
    cases h
    exact absurd rfl hne
  | case2 | case4 => cases h
  | case9 depth p c cs _ _ _ hstop =>
    cases h
    exact ⟨c, cs, rfl, (Bool.and_eq_true_iff.1 hstop).2⟩
  | case3 _ _ _ _ _ _ _ _ ih | case5 _ _ _ _ _ _ _ ih | case6 _ _ _ _ _ ih
  | case7 _ _ _ _ _ _ ih | case8 _ _ _ _ _ _ _ ih | case10 _ _ _ _ _ _ _ _ ih =>
    obtain ⟨more, hm, rfl⟩ := taking_eq_ok h
    exact ih hm

theorem StartsAttribute.not_endsValue {text : List Char} (h : StartsAttribute text) :
    ¬EndsValue text := by
  rintro ⟨c, cs, rfl, hc⟩
  obtain ⟨hseparator, hclose, -⟩ := h.head c rfl
  simp only [isSeparator, Bool.or_eq_false_iff] at hseparator
  simp [hseparator, hclose] at hc

theorem Alike.valueAt {value rest rest' : List Char} (h : Alike rest rest')
    (hvalue : ValueAt value rest) : ValueAt value rest' := by
  intro place
  have hends := endsValue_of_scanValue (hvalue place) h.ne_nil.1
  obtain ⟨c, cs, rfl, hc⟩ := hends
  obtain ⟨cs', rfl, -⟩ := h.exists_cons fun hstarts => hstarts.not_endsValue ⟨c, cs, rfl, hc⟩
  exact scanValue_append (hvalue place) rfl (.inr ⟨h.ne_nil.1, c, cs', rfl, hc⟩) place

theorem EndsAlike.valueAt {value rest rest' : List Char} (h : EndsAlike rest rest')
    (hvalue : ValueAt value rest) : ValueAt value rest' := by
  intro place
  obtain ⟨d, ds, ds', rfl, rfl, -⟩ := h
  have hne := List.cons_ne_nil d ds
  obtain ⟨c, cs, hcs, hc⟩ := endsValue_of_scanValue (hvalue place) hne
  obtain rfl := (List.cons.inj hcs).1
  exact scanValue_append (hvalue place) rfl (.inr ⟨hne, d, ds', rfl, hc⟩) place

/-- In front of a sign, a name sees no more of a value than its first character. -/
theorem NameAt.congr_value {name shown sign blanks front text : List Char} {escaped : Bool}
    (h : NameAt name shown (sign ++ (blanks ++ (front ++ text)))) (hsign : IsSign sign escaped)
    (hne : front ≠ []) (text' : List Char) :
    NameAt name shown (sign ++ (blanks ++ (front ++ text'))) := by
  have hlength : 2 ≤ (sign ++ (blanks ++ front)).length := by
    have hpos := List.length_pos_iff.2 hne
    have hsign := hsign.length_pos
    simp only [List.length_append]
    omega
  refine h.congr ?_
  simpa only [List.append_assoc] using endsAlike_append hlength text text'

/-- Behind an attribute with a value, its value has to end. -/
theorem attributeAt_congr_valued {name shown sign blanks value rest rest' : List Char}
    {escaped : Bool} (hname : NameAt name shown (sign ++ (blanks ++ (value ++ rest))))
    (hsign : IsSign sign escaped) (hblanks : ∀ c ∈ blanks, isInlineBlank c = true)
    (hhead : ∀ c ∈ (value ++ rest).head?, isInlineBlank c = false)
    (hvalue : ValueAt value rest') (hne : value ≠ []) :
    AttributeAt (.attribute (String.ofList name) (some (String.ofList value)) escaped)
      (shown ++ (sign ++ (blanks ++ value))) rest' := by
  refine .valued (hname.congr_value hsign hne rest') hsign hblanks ?_ hvalue hne
  rcases value with _ | ⟨c, value⟩
  · exact absurd rfl hne
  · exact hhead

/-- What stands behind an attribute may change behind its first character, as long as no sign
    follows the name. -/
theorem AttributeAt.congr_of_endsAlike {kind : TokenKind} {written rest rest' : List Char}
    (h : AttributeAt kind written rest) (hends : EndsAlike rest rest')
    (hsign : scanAssignment rest = none → scanAssignment rest' = none) :
    AttributeAt kind written rest' := by
  cases h with
  | bare hname hnone => exact .bare (hname.congr hends) (hsign hnone)
  | valued hname hsign hblanks hhead hvalue hne =>
    exact attributeAt_congr_valued hname hsign hblanks hhead (hends.valueAt hvalue) hne

/-- What stands behind an attribute may change from the start of another one on. -/
theorem AttributeAt.congr {kind : TokenKind} {written rest rest' : List Char}
    (h : AttributeAt kind written rest) (hrest : Alike rest rest') :
    AttributeAt kind written rest' := by
  cases h with
  | bare hname hsign =>
    have hsign' := hrest.scanAssignment_eq_none hsign
    cases hname with
    | quoted hquote h =>
      refine .bare (.quoted hquote (scanString_congr ?_ h rest')) hsign'
      rcases hquote with rfl | rfl <;> decide
    | plain hne hhead h => exact .bare (.plain hne hhead (hrest.scanName h)) hsign'
  | valued hname hsign hblanks hhead hvalue hne =>
    exact attributeAt_congr_valued hname hsign hblanks hhead (hrest.valueAt hvalue) hne

/-! ### Other names and values -/

/-- A character that neither ends a plain name nor nests it. -/
def isNamePlain (c : Char) : Bool :=
  !(['\n', '\r', ' ', '\t', '=', ',', ')', '!', '[', ']'].contains c)

theorem endsName_of_isNamePlain {c : Char} (h : isNamePlain c = true) (depth : Nat)
    (next : Option Char) : endsName depth c next = false ∧ bracketDepth depth c = depth := by
  simp [isNamePlain] at h
  simp [endsName, bracketDepth, h]

/-- A character that ends no name ends none in front of anything but an equals sign. -/
theorem endsName_of_ne {depth : Nat} {c d : Char} {next : Option Char}
    (h : endsName depth c next = false) (hd : d ≠ '=') : endsName depth c (some d) = false := by
  have hsome : (some d == some '=') = false := by simpa using hd
  simp only [endsName, Bool.or_eq_false_iff, Bool.and_eq_false_iff] at h ⊢
  exact ⟨h.1, h.2.imp_right fun h => ⟨h.1, .inr hsome⟩⟩

/-- Characters without brackets leave a name as deep as it was. -/
theorem scanName_of_scanName_append {depth : Nat} {run cs name rest : List Char}
    (hrun : ∀ c ∈ run, c ≠ '[' ∧ c ≠ ']')
    (h : scanName depth (run ++ cs) = (run ++ name, rest)) : scanName depth cs = (name, rest) := by
  induction run with
  | nil => exact h
  | cons c run ih =>
    obtain ⟨hc, hrun⟩ := List.forall_mem_cons.1 hrun
    rw [List.cons_append, List.cons_append, scanName_eq_cons_iff] at h
    have hdepth : bracketDepth depth c = depth := by simp [bracketDepth, hc]
    exact ih hrun (hdepth ▸ h.2)

theorem scanName_append_of_isNamePlain {depth : Nat} {run cs name rest : List Char}
    (hrun : ∀ c ∈ run, isNamePlain c = true) (h : scanName depth cs = (name, rest)) :
    scanName depth (run ++ cs) = (run ++ name, rest) := by
  induction run with
  | nil => exact h
  | cons c run ih =>
    obtain ⟨hc, hrun⟩ := List.forall_mem_cons.1 hrun
    obtain ⟨hends, hdepth⟩ := endsName_of_isNamePlain hc depth (run ++ cs).head?
    rw [List.cons_append, List.cons_append, scanName_eq_cons_iff, hdepth]
    exact ⟨hends, ih hrun⟩

/-- A run without brackets in a plain name may be exchanged for plain characters. -/
theorem scanName_exchange {depth : Nat} {before name new after rest : List Char}
    (hname : ∀ c ∈ name, c ≠ '[' ∧ c ≠ ']') (hnew : ∀ c ∈ new, isNamePlain c = true)
    (hne : new ≠ [])
    (h : scanName depth (before ++ (name ++ (after ++ rest))) = (before ++ (name ++ after), rest)) :
    scanName depth (before ++ (new ++ (after ++ rest))) = (before ++ (new ++ after), rest) := by
  induction before generalizing depth with
  | nil =>
    rw [List.nil_append, List.nil_append] at h ⊢
    exact scanName_append_of_isNamePlain hnew (scanName_of_scanName_append hname h)
  | cons c before ih =>
    simp only [List.cons_append, scanName_eq_cons_iff] at h ⊢
    refine ⟨?_, ih h.2⟩
    rcases before with _ | ⟨d, before⟩
    · rcases new with _ | ⟨d, new⟩
      · exact absurd rfl hne
      · have hd : d ≠ '=' := by
          rintro rfl
          exact absurd (hnew '=' List.mem_cons_self) (by decide)
        exact endsName_of_ne h.1 hd
    · exact h.1

/-- A name that is not quoted is shown as it is. -/
theorem NameAt.shown_eq {name shown behind : List Char} (h : NameAt name shown behind)
    (hquote : ∀ c ∈ shown.head?, c ≠ '"' ∧ c ≠ '\'') :
    shown = name ∧ scanName 0 (name ++ behind) = (name, behind) := by
  cases h with
  | quoted hq =>
    rcases hq with rfl | rfl
    · exact absurd rfl (hquote _ rfl).1
    · exact absurd rfl (hquote _ rfl).2
  | plain _ _ h => exact ⟨rfl, h⟩

/-- A name that is not quoted may be spelled otherwise. -/
theorem nameAt_respell {before name new after behind : List Char}
    (h : scanName 0 (before ++ (name ++ after) ++ behind) = (before ++ (name ++ after), behind))
    (hquote : ∀ c ∈ (before ++ (name ++ after)).head?, c ≠ '"' ∧ c ≠ '\'')
    (hname : ∀ c ∈ name, c ≠ '[' ∧ c ≠ ']')
    (hnew : ∀ c ∈ new, isNamePlain c = true ∧ c ≠ '"' ∧ c ≠ '\'') (hne : new ≠ []) :
    NameAt (before ++ (new ++ after)) (before ++ (new ++ after)) behind := by
  refine .plain (by simp [hne]) ?_ ?_
  · rcases before with _ | ⟨c, before⟩
    · rcases new with _ | ⟨c, new⟩
      · exact absurd rfl hne
      · rintro d ⟨⟩
        exact (hnew c List.mem_cons_self).2
    · exact hquote
  · simp only [List.append_assoc] at h ⊢
    exact scanName_exchange hname (fun c hc => (hnew c hc).1) hne h

/-- An attribute whose name is not quoted starts with it, and may be named otherwise. -/
theorem AttributeAt.rename {raw : String} {value : Option String} {escaped : Bool}
    {before name after written rest : List Char}
    (h : AttributeAt (.attribute raw value escaped) written rest)
    (hraw : raw.toList = before ++ (name ++ after))
    (hquote : ∀ c ∈ written.head?, c ≠ '"' ∧ c ≠ '\'') :
    ∃ behind, written = before ++ (name ++ after) ++ behind ∧
      ((∀ c ∈ name, c ≠ '[' ∧ c ≠ ']') → ∀ {new : List Char},
        (∀ c ∈ new, isNamePlain c = true ∧ c ≠ '"' ∧ c ≠ '\'') → new ≠ [] →
        AttributeAt (.attribute (String.ofList (before ++ (new ++ after))) value escaped)
          (before ++ (new ++ after) ++ behind) rest) := by
  cases h with
  | bare hat hsign =>
    rw [String.toList_ofList] at hraw
    subst hraw
    obtain ⟨rfl, hscan⟩ := hat.shown_eq hquote
    refine ⟨[], (List.append_nil _).symm, fun hname new hnew hne => ?_⟩
    rw [List.append_nil]
    exact .bare (nameAt_respell hscan hquote hname hnew hne) hsign
  | @valued _ shown sign blanks _ _ _ hat hsign hblanks hhead hvalue hv =>
    rw [String.toList_ofList] at hraw
    subst hraw
    have hquote' : ∀ c ∈ shown.head?, c ≠ '"' ∧ c ≠ '\'' := by
      intro c hc
      obtain ⟨cs, rfl⟩ := List.head?_eq_some_iff.1 hc
      exact hquote c rfl
    obtain ⟨rfl, hscan⟩ := hat.shown_eq hquote'
    exact ⟨_, rfl, fun hname new hnew hne =>
      .valued (nameAt_respell hscan hquote' hname hnew hne) hsign hblanks hhead hvalue hv⟩

/-- A value is taken from the start of a text, at a depth of brackets and in a string with a
    quote or outside of strings, whatever the places are. -/
def TakesValue (depth : Nat) (quote? : Option Char) (value rest : List Char) : Prop :=
  ∀ quoting place, quoting.quote? = quote? →
    scanValue depth quoting place (value ++ rest) = .ok (value, rest)

theorem valueAt_iff_takesValue {value rest : List Char} :
    ValueAt value rest ↔ TakesValue 0 none value rest :=
  ⟨fun h _ place hquote => Quoting.eq_outside hquote ▸ h place, fun h place => h _ place rfl⟩

theorem takesValue_of_scanValue {depth : Nat} {quoting : Quoting} {place : Position}
    {value rest : List Char}
    (h : scanValue depth quoting place (value ++ rest) = .ok (value, rest)) :
    TakesValue depth quoting.quote? value rest :=
  fun _ place' hquote => scanValue_append h hquote (.inl rfl) place'

/-- The scan of a value passes over characters, to another depth and quote. -/
def Passes (depth : Nat) (quote? : Option Char) (taken : List Char) (depth' : Nat)
    (quote?' : Option Char) : Prop :=
  ∀ quoting place, quoting.quote? = quote? → ∃ quoting' place', quoting'.quote? = quote?' ∧
    ∀ cs, scanValue depth quoting place (taken ++ cs) =
      taking taken (scanValue depth' quoting' place' cs)

theorem Passes.takesValue_iff {depth depth' : Nat} {quote? quote?' : Option Char}
    {taken value rest : List Char} (h : Passes depth quote? taken depth' quote?') :
    TakesValue depth quote? (taken ++ value) rest ↔ TakesValue depth' quote?' value rest := by
  constructor
  · intro htakes
    obtain ⟨quoting, hquoting⟩ : ∃ quoting : Quoting, quoting.quote? = quote? := by
      cases quote? with
      | none => exact ⟨.outside, rfl⟩
      | some quote => exact ⟨.inside quote .first, rfl⟩
    obtain ⟨quoting', place', rfl, hscan⟩ := h quoting .first hquoting
    have hall := htakes quoting .first hquoting
    rw [List.append_assoc, hscan] at hall
    obtain ⟨more, hm, heq⟩ := taking_eq_ok hall
    obtain rfl := List.append_cancel_left heq
    exact takesValue_of_scanValue hm
  · intro htakes quoting place hquoting
    obtain ⟨quoting', place', hquoting', hscan⟩ := h quoting place hquoting
    rw [List.append_assoc, hscan, htakes quoting' place' hquoting']
    rfl

/-- A character of a value that neither ends it, nests it nor belongs to a string. -/
def isValuePlain (c : Char) : Bool :=
  !(isQuote c || c == '\\' || c == '(' || c == '[' || c == '\x7b' || c == ')' || c == ']' ||
    c == '\x7d' || c == ',' || Text.isAsciiBlank c)

/-- A plain character changes nothing. -/
theorem passes_of_isValuePlain {c : Char} (hc : isValuePlain c = true) (depth : Nat)
    {quote? : Option Char} (hquote : ∀ quote ∈ quote?, isQuote quote = true) :
    Passes depth quote? [c] depth quote? := by
  intro quoting place hquoting
  refine ⟨quoting, place.next c, hquoting, fun cs => ?_⟩
  simp only [isValuePlain, Bool.not_eq_true', Bool.or_eq_false_iff] at hc
  cases quoting with
  | outside =>
    rw [List.singleton_append]
    simp only [scanValue, hc, Bool.false_or, Bool.false_and, Bool.and_false]
    rfl
  | inside quote start =>
    have hne : (c == quote) = false := by
      rw [beq_eq_false_iff_ne]
      rintro rfl
      have hopen := hquote c (hquoting ▸ rfl)
      rw [hc.1.1.1.1.1.1.1.1.1] at hopen
      cases hopen
    rw [List.singleton_append]
    conv => lhs; unfold scanValue
    simp only [hc, hne]
    rfl

theorem takesValue_append_iff {run : List Char} (hrun : ∀ c ∈ run, isValuePlain c = true)
    {depth : Nat} {quote? : Option Char} (hquote : ∀ quote ∈ quote?, isQuote quote = true)
    {value rest : List Char} :
    TakesValue depth quote? (run ++ value) rest ↔ TakesValue depth quote? value rest := by
  induction run with
  | nil => rfl
  | cons c run ih =>
    obtain ⟨hc, hrun⟩ := List.forall_mem_cons.1 hrun
    rw [← ih hrun]
    exact (passes_of_isValuePlain hc depth hquote).takesValue_iff

/-- The scan of a value goes on from a character behind one or two others. -/
def GoesOn (depth : Nat) (quote? : Option Char) (b : Char) (value : List Char) : Prop :=
  ∃ taken more depth' quote?', b :: value = taken ++ more ∧ (taken = [b] ∨ ∃ d, taken = [b, d]) ∧
    (∀ quote ∈ quote?', isQuote quote = true) ∧ Passes depth quote? taken depth' quote?'

/-- Outside of strings, characters are passed one by one. -/
theorem TakesValue.goesOn_outside {depth : Nat} {b : Char} {value rest : List Char}
    (h : TakesValue depth none (b :: value) rest) : GoesOn depth none b value := by
  have hpass (depth' : Nat) (quote?' : Option Char)
      (hquote : ∀ quote ∈ quote?', isQuote quote = true)
      (hscan : ∀ place, ∃ quoting', quoting'.quote? = quote?' ∧ ∀ cs,
        scanValue depth .outside place (b :: cs) =
          taking [b] (scanValue depth' quoting' (place.next b) cs)) :
      GoesOn depth none b value := by
    refine ⟨[b], value, depth', quote?', rfl, .inl rfl, hquote, fun quoting place hq => ?_⟩
    obtain rfl := Quoting.eq_outside hq
    obtain ⟨quoting', hquoting', heq⟩ := hscan place
    exact ⟨quoting', place.next b, hquoting', heq⟩
  have hall := h .outside .first rfl
  rw [List.cons_append, scanValue] at hall
  split at hall
  · rename_i hb
    refine hpass depth (some b) (by rintro _ ⟨⟩; exact hb) fun place =>
      ⟨.inside b place, rfl, fun cs => ?_⟩
    rw [scanValue, if_pos hb]
  · rename_i hb
    split at hall
    · rename_i ho
      refine hpass (depth + 1) none (by simp) fun place => ⟨.outside, rfl, fun cs => ?_⟩
      rw [scanValue, if_neg hb, if_pos ho]
    · rename_i ho
      split at hall
      · rename_i hc
        refine hpass (depth - 1) none (by simp) fun place => ⟨.outside, rfl, fun cs => ?_⟩
        rw [scanValue, if_neg hb, if_neg ho, if_pos hc]
      · rename_i hc
        split at hall
        · cases hall
        · rename_i hstop
          refine hpass depth none (by simp) fun place => ⟨.outside, rfl, fun cs => ?_⟩
          rw [scanValue, if_neg hb, if_neg ho, if_neg hc, if_neg hstop]

/-- In a string, a backslash takes the character behind it along. -/
theorem TakesValue.goesOn_inside {depth : Nat} {quote b : Char} {value rest : List Char}
    (h : TakesValue depth (some quote) (b :: value) rest) (hquote : isQuote quote = true) :
    GoesOn depth (some quote) b value := by
  by_cases hb : (b == '\\') = true
  · obtain ⟨d, value, rfl⟩ : ∃ d more, value = d :: more := by
      have hall := h (.inside quote .first) .first rfl
      rw [List.cons_append] at hall
      unfold scanValue at hall
      dsimp only at hall
      rw [if_pos hb] at hall
      split at hall
      · obtain ⟨more, -, heq⟩ := taking_eq_ok hall
        exact ⟨_, more, (List.cons.inj heq).2⟩
      · cases hall
    refine ⟨[b, d], value, depth, some quote, rfl, .inr ⟨d, rfl⟩, by rintro _ ⟨⟩; exact hquote,
      fun quoting place hq => ?_⟩
    obtain ⟨start, rfl⟩ := Quoting.eq_inside hq
    refine ⟨.inside quote start, (place.next b).next d, rfl, fun cs => ?_⟩
    conv => lhs; unfold scanValue
    exact if_pos hb
  · refine ⟨[b], value, depth, if b == quote then none else some quote, rfl, .inl rfl, ?_,
      fun quoting place hq => ?_⟩
    · split
      · exact nofun
      · rintro _ ⟨⟩
        exact hquote
    · obtain ⟨start, rfl⟩ := Quoting.eq_inside hq
      refine ⟨if b == quote then .outside else .inside quote start, place.next b, ?_,
        fun cs => ?_⟩
      · split <;> rfl
      · conv => lhs; unfold scanValue
        exact if_neg hb

/-- A run of plain characters behind a plain one may be exchanged for another in a value. The
    first one stays, as a backslash may stand in front of it. -/
theorem TakesValue.exchange {c : Char} {run run' : List Char} (hc : isValuePlain c = true)
    (hrun : ∀ c ∈ run, isValuePlain c = true) (hrun' : ∀ c ∈ run', isValuePlain c = true)
    {depth : Nat} {quote? : Option Char} {before after rest : List Char}
    (h : TakesValue depth quote? (before ++ c :: (run ++ after)) rest)
    (hquote : ∀ quote ∈ quote?, isQuote quote = true) :
    TakesValue depth quote? (before ++ c :: (run' ++ after)) rest := by
  have hbehind {depth : Nat} {quote? : Option Char}
      (hquote : ∀ quote ∈ quote?, isQuote quote = true)
      (h : TakesValue depth quote? (run ++ after) rest) :
      TakesValue depth quote? (run' ++ after) rest :=
    (takesValue_append_iff hrun' hquote).2 ((takesValue_append_iff hrun hquote).1 h)
  induction hn : before.length using Nat.strong_induction_on generalizing before depth quote? with
  | _ n ih =>
    subst hn
    rcases before with _ | ⟨b, before⟩
    · have hpasses := passes_of_isValuePlain hc depth hquote
      exact hpasses.takesValue_iff.2 (hbehind hquote (hpasses.takesValue_iff.1 h))
    · have hgoes : GoesOn depth quote? b (before ++ c :: (run ++ after)) := by
        cases quote? with
        | none => exact TakesValue.goesOn_outside h
        | some quote => exact TakesValue.goesOn_inside h (hquote quote rfl)
      obtain ⟨taken, more, depth', quote?', hmore, htaken, hquote', hpasses⟩ := hgoes
      have hrest := h
      rw [List.cons_append, hmore, hpasses.takesValue_iff] at hrest
      rcases htaken with rfl | ⟨d, rfl⟩
      · cases hmore
        exact hpasses.takesValue_iff.2 (ih before.length (Nat.lt_succ_self _) hrest hquote' rfl)
      · rcases before with _ | ⟨e, before⟩
        · cases hmore
          exact hpasses.takesValue_iff.2 (hbehind hquote' hrest)
        · cases hmore
          exact hpasses.takesValue_iff.2
            (ih before.length (Nat.lt_add_of_pos_right Nat.two_pos) hrest hquote' rfl)

/-- In the value of an attribute, a run of plain characters may be exchanged. -/
theorem AttributeAt.revalue {name value : String} {escaped : Bool} {c : Char}
    {before run run' after written rest : List Char}
    (h : AttributeAt (.attribute name (some value) escaped) written rest)
    (hvalue : value.toList = before ++ c :: (run ++ after)) (hc : isValuePlain c = true)
    (hrun : ∀ c ∈ run, isValuePlain c = true) (hrun' : ∀ c ∈ run', isValuePlain c = true) :
    ∃ front, front ≠ [] ∧ written = front ++ (before ++ c :: (run ++ after)) ∧
      AttributeAt
        (.attribute name (some (String.ofList (before ++ c :: (run' ++ after)))) escaped)
        (front ++ (before ++ c :: (run' ++ after))) rest := by
  cases h with
  | @valued _ shown sign blanks _ _ _ hname hsign hblanks hhead hat hne =>
    rw [String.toList_ofList] at hvalue
    subst hvalue
    refine ⟨shown ++ (sign ++ blanks), ?_, by simp only [List.append_assoc], ?_⟩
    · exact List.append_ne_nil_of_left_ne_nil hname.ne_nil _
    · have hsplit (run : List Char) : before ++ c :: (run ++ after) ++ rest =
          before ++ [c] ++ (run ++ after ++ rest) := by simp
      rw [hsplit] at hname
      have hname' := hname.congr_value hsign (by simp) (run' ++ after ++ rest)
      rw [← hsplit] at hname'
      have hhead' : ∀ d ∈ (before ++ c :: (run' ++ after) ++ rest).head?,
          isInlineBlank d = false := by
        rcases before with _ | ⟨b, before⟩ <;> exact hhead
      have hvalue' : ValueAt (before ++ c :: (run' ++ after)) rest :=
        valueAt_iff_takesValue.2
          ((valueAt_iff_takesValue.1 hat).exchange hc hrun hrun' nofun)
      have hvalued := AttributeAt.valued hname' hsign hblanks hhead' hvalue'
        (List.append_ne_nil_of_right_ne_nil _ (List.cons_ne_nil _ _))
      simpa only [List.append_assoc] using hvalued

theorem NameAt.not_startsSign {name shown behind : List Char} (h : NameAt name shown behind) :
    ¬StartsSign (shown ++ behind) := by
  cases h with
  | quoted hquote =>
    rcases hquote with rfl | rfl <;> (rintro (⟨_, ⟨⟩⟩ | ⟨_, ⟨⟩⟩))
  | plain hne _ h =>
    rcases name with _ | ⟨c, name⟩
    · exact absurd rfl hne
    · rw [List.cons_append] at h ⊢
      have hends := (scanName_eq_cons_iff.1 h).1
      rintro (⟨cs, hcs⟩ | ⟨cs, hcs⟩)
      · cases hcs
        cases hends
      · obtain ⟨rfl, hequals⟩ := List.cons.inj hcs
        rw [← hequals] at hends
        cases hends

/-- In a list, an attribute starts no sign either. -/
theorem AttributeAt.startsAttribute {kind : TokenKind} {written rest : List Char}
    (h : AttributeAt kind written rest)
    (hhead : ∀ c ∈ (written ++ rest).head?, isSeparator c = false ∧ c ≠ ')') :
    StartsAttribute (written ++ rest) := by
  have hsign : ¬StartsSign (written ++ rest) := by
    cases h with
    | bare hname => exact hname.not_startsSign
    | valued hname => simpa only [List.append_assoc] using hname.not_startsSign
  refine ⟨List.append_ne_nil_of_left_ne_nil h.ne_nil _, fun c hc => ?_, fun h => hsign (.inr h)⟩
  refine ⟨(hhead c hc).1, (hhead c hc).2, ?_⟩
  rintro rfl
  obtain ⟨cs, hcs⟩ := List.head?_eq_some_iff.1 hc
  exact hsign (.inl ⟨cs, hcs.symm⟩)

end Lexer

end PugLint
