import PugLint.Proofs.LineIndex
import PugLint.Proofs.Token.Extent
import PugLint.Proofs.Token.Moves

/-!
# Paths of the reader

What the reader gives of a template it reads along a path of moves, from the first to the
last character. This module says so part by part, in the order of the reader: attributes,
heads of elements, lines, blocks of raw text and the whole template.

* `Lexer.scanValue_append`, `Lexer.scanGroup_append`: what scanners take depends neither on
  the place nor on the text behind, its first character apart;
* `Lexer.goes_readElement`, `Lexer.goes_readLine`, `Lexer.goes_readLines`: the parts of the
  reader follow paths;
* `Lexer.ahead_nextLine`, `Lexer.nextLine_of_ahead`: the next line with content;
* `exists_path_tokenize`: a template is read along a path from its start to its end.
-/

namespace PugLint

namespace Lexer

variable {cursor stop : Cursor}

/-! ### Runs of characters -/

theorem takeWhile_ne_nil {p : Char → Bool} {cs : List Char} (h : cs.head?.any p = true) :
    cs.takeWhile p ≠ [] := by
  rcases cs with _ | ⟨c, cs⟩
  · cases h
  · have hc : p c = true := h
    rw [List.takeWhile_cons_of_pos hc]
    exact List.cons_ne_nil _ _

theorem head?_dropWhile_eq_false (p : Char → Bool) (cs : List Char) :
    ∀ c ∈ (cs.dropWhile p).head?, p c = false := by
  intro c hc
  have hnot := List.head?_dropWhile_not p cs
  rwa [hc] at hnot

/-! ### Scanners, whatever the place -/

/-- The quote of the string that a scan is in. -/
def Quoting.quote? : Quoting → Option Char
  | .outside => none
  | .inside quote _ => some quote

/-- The value of an attribute may end here. -/
def EndsValue (rest : List Char) : Prop :=
  ∃ c cs, rest = c :: cs ∧ (c == ')' || c == ',' || Text.isAsciiBlank c) = true

theorem Quoting.eq_outside {quoting : Quoting} (h : quoting.quote? = none) :
    quoting = .outside := by
  cases quoting with
  | outside => rfl
  | inside quote start => cases h

theorem Quoting.eq_inside {quoting : Quoting} {quote : Char} (h : quoting.quote? = some quote) :
    ∃ start, quoting = .inside quote start := by
  cases quoting with
  | outside => cases h
  | inside quote start =>
    cases h
    exact ⟨start, rfl⟩

theorem scanValue_of_endsValue {rest : List Char} (h : EndsValue rest) (p : Position) :
    scanValue 0 .outside p rest = .ok ([], rest) := by
  obtain ⟨c, cs, rfl, hc⟩ := h
  have hstop : c = ')' ∨ c = ',' ∨ c = ' ' ∨ c = '\t' ∨ c = '\n' ∨ c = '\x0c' ∨ c = '\r' := by
    simp [Text.isAsciiBlank] at hc
    grind
  rcases hstop with rfl | rfl | rfl | rfl | rfl | rfl | rfl <;> rfl

/-- Where a value may end depends on the first character behind it alone. -/
theorem scanValue_append {depth : Nat} {quoting quoting' : Quoting} {p : Position}
    {cs value rest rest' : List Char} (h : scanValue depth quoting p cs = .ok (value, rest))
    (hquote : quoting'.quote? = quoting.quote?)
    (hrest : rest' = rest ∨ rest ≠ [] ∧ EndsValue rest') (p' : Position) :
    scanValue depth quoting' p' (value ++ rest') = .ok (value, rest') := by
  fun_induction scanValue depth quoting p cs generalizing quoting' value rest p' with
  | case1 =>
    cases h
    obtain rfl := Quoting.eq_outside hquote
    rcases hrest with rfl | ⟨hne, _⟩
    · rfl
    · exact absurd rfl hne
  | case2 => cases h
  | case3 _ p c quote start hc d ds ih =>
    obtain ⟨more, hm, rfl⟩ := taking_eq_ok h
    obtain ⟨start', rfl⟩ := Quoting.eq_inside hquote
    unfold scanValue
    exact (if_pos hc).trans (congrArg (taking [c, d]) (ih hm hquote hrest _))
  | case4 => cases h
  | case5 _ p c cs quote start hc ih =>
    obtain ⟨more, hm, rfl⟩ := taking_eq_ok h
    obtain ⟨start', rfl⟩ := Quoting.eq_inside hquote
    unfold scanValue
    exact (if_neg hc).trans (congrArg (taking [c]) (ih hm (by split <;> rfl) hrest _))
  | case6 _ p c cs hc ih =>
    obtain ⟨more, hm, rfl⟩ := taking_eq_ok h
    obtain rfl := Quoting.eq_outside hquote
    rw [List.singleton_append, List.cons_append, scanValue, if_pos hc]
    have hsame : (Quoting.inside c p').quote? = some c := rfl
    exact congrArg (taking [c]) (ih hm hsame hrest _)
  | case7 _ p c cs hq hc ih =>
    obtain ⟨more, hm, rfl⟩ := taking_eq_ok h
    obtain rfl := Quoting.eq_outside hquote
    rw [List.singleton_append, List.cons_append, scanValue, if_neg hq, if_pos hc, ih hm rfl hrest]
    rfl
  | case8 _ p c cs hq ho hc ih =>
    obtain ⟨more, hm, rfl⟩ := taking_eq_ok h
    obtain rfl := Quoting.eq_outside hquote
    rw [List.singleton_append, List.cons_append, scanValue, if_neg hq, if_neg ho, if_pos hc,
      ih hm rfl hrest]
    rfl
  | case9 depth p c cs hq ho hc hstop =>
    cases h
    obtain rfl := Quoting.eq_outside hquote
    simp only [Bool.and_eq_true, beq_iff_eq] at hstop
    obtain ⟨rfl, hstop⟩ := hstop
    refine scanValue_of_endsValue ?_ p'
    rcases hrest with rfl | ⟨_, hends⟩
    · exact ⟨c, cs, rfl, hstop⟩
    · exact hends
  | case10 _ p c cs hq ho hc hstop ih =>
    obtain ⟨more, hm, rfl⟩ := taking_eq_ok h
    obtain rfl := Quoting.eq_outside hquote
    rw [List.singleton_append, List.cons_append, scanValue, if_neg hq, if_neg ho, if_neg hc,
      if_neg hstop, ih hm rfl hrest]
    rfl

/-- What is taken of a group does not depend on what stands behind it. -/
theorem scanGroup_append {start start' : Position} {depth : Nat} {quoting quoting' : Quoting}
    {p : Position} {cs group rest : List Char}
    (h : scanGroup start depth quoting p cs = .ok (group, rest))
    (hquote : quoting'.quote? = quoting.quote?) (rest' : List Char) (p' : Position) :
    scanGroup start' depth quoting' p' (group ++ rest') = .ok (group, rest') := by
  fun_induction scanGroup start depth quoting p cs generalizing quoting' group rest p' with
  | case1 | case2 | case4 => cases h
  | case3 _ p c quote start hc d ds ih =>
    obtain ⟨more, hm, rfl⟩ := taking_eq_ok h
    obtain ⟨start', rfl⟩ := Quoting.eq_inside hquote
    unfold scanGroup
    exact (if_pos hc).trans (congrArg (taking [c, d]) (ih hm hquote _))
  | case5 _ p c cs quote start hc ih =>
    obtain ⟨more, hm, rfl⟩ := taking_eq_ok h
    obtain ⟨start', rfl⟩ := Quoting.eq_inside hquote
    unfold scanGroup
    exact (if_neg hc).trans (congrArg (taking [c]) (ih hm (by split <;> rfl) _))
  | case6 _ p c cs hc ih =>
    obtain ⟨more, hm, rfl⟩ := taking_eq_ok h
    obtain rfl := Quoting.eq_outside hquote
    rw [List.singleton_append, List.cons_append, scanGroup, if_pos hc]
    have hsame : (Quoting.inside c p').quote? = some c := rfl
    exact congrArg (taking [c]) (ih hm hsame _)
  | case7 _ p c cs hq hc ih =>
    obtain ⟨more, hm, rfl⟩ := taking_eq_ok h
    obtain rfl := Quoting.eq_outside hquote
    rw [List.singleton_append, List.cons_append, scanGroup, if_neg hq, if_pos hc, ih hm rfl]
    rfl
  | case8 _ p c cs hq ho hc hdepth =>
    cases h
    obtain rfl := Quoting.eq_outside hquote
    rw [List.singleton_append, scanGroup, if_neg hq, if_neg ho, if_pos hc, if_pos hdepth]
  | case9 _ p c cs hq ho hc hdepth ih =>
    obtain ⟨more, hm, rfl⟩ := taking_eq_ok h
    obtain rfl := Quoting.eq_outside hquote
    rw [List.singleton_append, List.cons_append, scanGroup, if_neg hq, if_neg ho, if_pos hc,
      if_neg hdepth, ih hm rfl]
    rfl
  | case10 _ p c cs hq ho hc ih =>
    obtain ⟨more, hm, rfl⟩ := taking_eq_ok h
    obtain rfl := Quoting.eq_outside hquote
    rw [List.singleton_append, List.cons_append, scanGroup, if_neg hq, if_neg ho, if_neg hc,
      ih hm rfl]
    rfl

/-! ### Attributes -/

theorem readName_eq {name written rest : List Char}
    (h : readName cursor = .ok (name, written, rest)) :
    cursor.rest = written ++ rest ∧ NameWritten name written := by
  rw [readName] at h
  split at h
  · rename_i c cs hcs
    split at h
    · rename_i hc
      split at h
      · rename_i taken rest' hs
        obtain ⟨rfl, body, rfl⟩ := eq_append_of_scanString hs
        obtain ⟨rfl, rfl, rfl⟩ : _ ∧ _ ∧ _ := by simpa using h
        refine ⟨hcs, .inr ?_⟩
        simp only [Bool.or_eq_true, beq_iff_eq] at hc
        exact hc.imp (fun hc => by rw [hc]) (fun hc => by rw [hc])
      · cases h
    · dsimp only at h
      split at h
      · cases h
      · cases h
        exact ⟨hcs.trans (scanName_append 0 (c :: cs)).symm, .inl rfl⟩
  · cases h

theorem readName_place {name shown rest : List Char}
    (h : readName cursor = .ok (name, shown, rest)) (p : Position) :
    readName ⟨p, cursor.rest⟩ = .ok (name, shown, rest) := by
  unfold readName at h ⊢
  dsimp only at h ⊢
  split at h
  · split at h
    · rename_i hquote
      rw [if_pos hquote]
      split at h
      · exact h
      · cases h
    · rename_i hquote
      rw [if_neg hquote]
      split at h
      · cases h
      · rename_i hne
        rw [if_neg hne]
        exact h
  · cases h

/-- An attribute without a value. -/
theorem readAttribute_bare {name shown rest : List Char}
    (hn : readName cursor = .ok (name, shown, rest)) (ha : scanAssignment rest = none) :
    readAttribute cursor = .ok (cursor.token (.attribute (String.ofList name) none true) shown,
      cursor.advance shown rest) := by
  rw [readAttribute]
  refine bind_eq_ok.2 ⟨_, hn, ?_⟩
  dsimp only
  rw [ha]
  rfl

/-- An attribute with a value. -/
theorem readAttribute_valued {name shown rest sign behind before value left : List Char}
    {escaped : Bool} (hn : readName cursor = .ok (name, shown, rest))
    (ha : scanAssignment rest = some (sign, escaped, behind))
    (hbefore : before = shown ++ sign ++ behind.takeWhile isInlineBlank)
    (hv : scanValue 0 .outside (cursor.place.after before) (behind.dropWhile isInlineBlank) =
      .ok (value, left)) (hne : value ≠ []) :
    readAttribute cursor =
      .ok (cursor.token (.attribute (String.ofList name) (some (String.ofList value)) escaped)
        (before ++ value), cursor.advance (before ++ value) left) := by
  subst hbefore
  rw [readAttribute]
  refine bind_eq_ok.2 ⟨_, hn, ?_⟩
  dsimp only
  rw [ha]
  refine bind_eq_ok.2 ⟨_, hv, ?_⟩
  dsimp only
  rw [if_neg (by simpa using hne)]
  rfl

/-- The two kinds of attributes. -/
theorem readAttribute_cases {token : Token} (h : readAttribute cursor = .ok (token, stop)) :
    ∃ name shown rest, readName cursor = .ok (name, shown, rest) ∧
      ((scanAssignment rest = none ∧
          token = cursor.token (.attribute (String.ofList name) none true) shown ∧
          stop = cursor.advance shown rest) ∨
        ∃ sign escaped behind before value left,
          scanAssignment rest = some (sign, escaped, behind) ∧
          before = shown ++ sign ++ behind.takeWhile isInlineBlank ∧
          scanValue 0 .outside (cursor.place.after before) (behind.dropWhile isInlineBlank) =
            .ok (value, left) ∧ value ≠ [] ∧
          token = cursor.token
            (.attribute (String.ofList name) (some (String.ofList value)) escaped)
            (before ++ value) ∧
          stop = cursor.advance (before ++ value) left) := by
  rw [readAttribute] at h
  obtain ⟨⟨name, shown, rest⟩, hn, h⟩ := bind_eq_ok.1 h
  refine ⟨name, shown, rest, hn, ?_⟩
  dsimp only at h
  split at h
  · rename_i ha
    cases h
    exact .inl ⟨ha, rfl, rfl⟩
  · rename_i sign escaped behind ha
    obtain ⟨⟨value, left⟩, hv, h⟩ := bind_eq_ok.1 h
    dsimp only at h
    split at h
    · cases h
    · rename_i hne
      cases h
      exact .inr ⟨sign, escaped, behind, _, value, left, ha, rfl, hv, by simpa using hne, rfl, rfl⟩

/-- An attribute is read in the same way at any place. -/
theorem exists_readsAttribute {token : Token} (h : readAttribute cursor = .ok (token, stop)) :
    ∃ kind written, cursor.rest = written ++ stop.rest ∧ token = cursor.token kind written ∧
      stop = cursor.advance written stop.rest ∧ ReadsAttribute kind written stop.rest := by
  obtain ⟨name, shown, rest, hn, ⟨ha, rfl, rfl⟩ |
    ⟨sign, escaped, behind, before, value, left, ha, hbefore, hv, hne, rfl, rfl⟩⟩ :=
    readAttribute_cases h
  · have hrest : cursor.rest = shown ++ rest := (readName_eq hn).1
    refine ⟨_, shown, hrest, rfl, rfl, fun place => ?_⟩
    have hread := readAttribute_bare (readName_place hn place) ha
    rw [hrest] at hread
    exact hread
  · have hrest : cursor.rest = before ++ value ++ left := by
      have hvalue := eq_append_of_scanValue hv
      rw [(readName_eq hn).1, (scanAssignment_eq ha).1, hbefore, List.append_assoc,
        List.append_assoc, List.append_assoc, ← hvalue, List.takeWhile_append_dropWhile]
    refine ⟨_, before ++ value, hrest, rfl, rfl, fun place => ?_⟩
    have hv' := scanValue_append hv rfl (.inl rfl) (place.after before)
    rw [← eq_append_of_scanValue hv] at hv'
    have hread := readAttribute_valued (readName_place hn place) ha hbefore hv' hne
    rw [hrest] at hread
    exact hread

theorem ReadsAttribute.exists_eq {kind : TokenKind} {written rest : List Char}
    (h : ReadsAttribute kind written rest) :
    ∃ name value escaped, kind = .attribute name value escaped := by
  obtain ⟨name, shown, left, -, ⟨-, htoken, -⟩ |
    ⟨_, escaped, _, before, value, _, -, -, -, -, htoken, -⟩⟩ := readAttribute_cases (h .first)
  · exact ⟨_, _, _, congrArg Token.kind htoken⟩
  · exact ⟨_, _, _, congrArg Token.kind htoken⟩

theorem rest_ne_nil_of_readAttributes {start : Position} {fuel : Nat}
    {found : List Token × Cursor} (h : readAttributes start fuel cursor = .ok found) :
    cursor.rest ≠ [] := by
  rcases cursor with ⟨place, rest⟩
  rintro rfl
  rcases fuel with _ | fuel <;> cases h

/-- A list of attributes is read along a path. -/
theorem goes_readAttributes {start : Position} {fuel : Nat} {tokens : List Token}
    (h : readAttributes start fuel cursor = .ok (tokens, stop)) (levels : List Nat) :
    Goes ⟨.list, levels⟩ cursor tokens ⟨.head true, levels⟩ stop := by
  induction fuel generalizing cursor tokens stop with
  | zero => cases h
  | succ fuel ih =>
    have hsplit : cursor.rest =
        cursor.rest.takeWhile isSeparator ++ cursor.rest.dropWhile isSeparator :=
      List.takeWhile_append_dropWhile.symm
    have hseparators : ∀ c ∈ cursor.rest.takeWhile isSeparator, isSeparator c = true :=
      fun c hc => List.mem_takeWhile_imp hc
    rw [readAttributes] at h
    split at h
    · cases h
    · rename_i rest hrest
      cases h
      exact .skipToken (.closes hseparators) (hsplit.trans (congrArg _ hrest))
    · rename_i hnil hclose
      obtain ⟨⟨token, middle⟩, ha, h⟩ := bind_eq_ok.1 h
      obtain ⟨⟨others, stop'⟩, hs, h⟩ := bind_eq_ok.1 h
      cases h
      obtain ⟨kind, written, hrest, rfl, hmiddle, hread⟩ := exists_readsAttribute ha
      have hrest' : cursor.rest.dropWhile isSeparator = written ++ middle.rest := hrest
      have hhead : ∀ c ∈ (written ++ middle.rest).head?, isSeparator c = false ∧ c ≠ ')' := by
        rw [← hrest']
        intro c hc
        refine ⟨head?_dropWhile_eq_false _ _ c hc, ?_⟩
        rintro rfl
        obtain ⟨rest, hcons⟩ := List.head?_eq_some_iff.1 hc
        exact hclose rest hcons
      have hmove : Goes ⟨.list, levels⟩ cursor _ ⟨.list, levels⟩ _ :=
        .skipToken (.listed hseparators hhead hread (rest_ne_nil_of_readAttributes hs))
          (hsplit.trans (congrArg _ hrest'))
      have hadvance : middle = (cursor.advance (cursor.rest.takeWhile isSeparator)
          (written ++ middle.rest)).advance written middle.rest := hmiddle
      rw [← hadvance] at hmove
      exact hmove.trans (ih hs)

/-! ### Elements -/

theorem readText_eq {line rest : List Char} (h : splitLine cursor.rest = (line, rest)) :
    readText cursor = lastToken cursor (.text (String.ofList line)) line rest false := by
  rw [readText, h]

/-- A tag name is not empty. -/
theorem exists_cons_of_scanTag {c : Char} {cs name rest : List Char}
    (h : scanTag (c :: cs) = (name, rest)) (hc : (c.isAlphanum || c == '_') = true) :
    ∃ more, name = c :: more := by
  have hrun : (c :: cs).takeWhile isTagChar = c :: cs.takeWhile isTagChar := by
    refine List.takeWhile_cons_of_pos ?_
    simp only [isTagChar, Bool.or_eq_true] at hc ⊢
    exact .inl (.inl hc)
  -- The ending that is left out does not reach the first character.
  have hlt :
      ((c :: cs.takeWhile isTagChar).reverse.takeWhile fun c => c == ':' || c == '-').length <
        (c :: cs.takeWhile isTagChar).length := by
    have hle := (List.takeWhile_prefix (fun c => c == ':' || c == '-')
      (l := (c :: cs.takeWhile isTagChar).reverse)).length_le
    rw [List.length_reverse] at hle
    refine Nat.lt_of_le_of_ne hle fun heq => ?_
    have hall := (List.takeWhile_prefix _).eq_of_length (heq.trans List.length_reverse.symm)
    have hc' := List.takeWhile_eq_self_iff.1 hall c (by simp)
    simp only [Bool.or_eq_true, beq_iff_eq] at hc'
    rcases hc' with rfl | rfl <;> exact absurd hc (by decide)
  have hname := congrArg Prod.fst h
  simp only [scanTag, hrun, List.length_reverse] at hname
  obtain ⟨n, hn⟩ := Nat.exists_eq_add_of_lt hlt
  refine ⟨(cs.takeWhile isTagChar).take n, ?_⟩
  rw [← hname, hn, Nat.add_assoc, Nat.add_sub_cancel_left, List.take_succ_cons]

/-- What is read of a line leads to its end. -/
def GoesLine (s : State) (cursor : Cursor) (line : LineTokens) : Prop :=
  Goes s cursor line.tokens ⟨.lineEnd line.opensBlock, s.levels⟩ line.cursor

theorem GoesLine.prepending {s t : State} {middle : Cursor} {tokens : List Token}
    {line : LineTokens} (h : Goes s cursor tokens t middle) (hl : GoesLine t middle line)
    (hlevels : t.levels = s.levels) : GoesLine s cursor (line.prepending tokens) := by
  have htrans := h.trans hl
  rw [hlevels] at htrans
  exact htrans

/-- Code whose value is shown, behind its marker. -/
theorem goes_readCode {s : State} {marker cs : List Char}
    (hmarker : marker = ['='] ∨ marker = ['!', '=']) (h : cursor.rest = marker ++ cs)
    (hmove : ∀ {line rest : List Char} {kind : TokenKind}, ShownCode line kind →
      IsLine line rest → Move s (.token kind line) rest ⟨.lineEnd false, s.levels⟩) :
    GoesLine s cursor (readCode cursor marker.length true) := by
  obtain ⟨line, hline⟩ := exists_line_eq_append h (by rcases hmarker with rfl | rfl <;> simp)
  obtain ⟨hisLine, hrest, _⟩ := isLine_splitLine (Eq.refl (splitLine cursor.rest))
  have hshown : ShownCode (marker ++ line) (.code (String.ofList (Text.trimLeft line)) true) := by
    rcases hmarker with rfl | rfl
    · exact .escaped
    · exact .raw
  rw [hline] at hisLine hrest
  have hgoes := Goes.token (hmove hshown hisLine) hrest
  have hread : readCode cursor marker.length true = lastToken cursor
      (.code (String.ofList (Text.trimLeft line)) true) (marker ++ line)
      (splitLine cursor.rest).2 false := by
    simp only [readCode, hline, List.drop_left, Bool.not_true, Bool.false_and]
  rw [hread]
  exact hgoes

/-- The head of an element is read along a path. -/
theorem goes_readElement {fuel : Nat} {started : Bool} {line : LineTokens}
    (h : readElement fuel started cursor = .ok line) (levels : List Nat) :
    GoesLine ⟨.head started, levels⟩ cursor line := by
  fun_induction readElement fuel started cursor generalizing line with
  | case1 => cases h
  | case2 _ _ cursor hend =>
    cases h
    exact .idle (.ended hend)
  | case3 _ _ cursor hend hrest =>
    rw [hrest] at hend
    exact absurd rfl hend
  -- A tag name.
  | case4 _ started cursor _ c cs hrest hc name rest hs ih =>
    obtain ⟨line, hl, rfl⟩ := map_eq_ok.1 h
    simp only [Bool.and_eq_true, Bool.not_eq_true'] at hc
    obtain ⟨rfl, hc⟩ := hc
    obtain ⟨more, rfl⟩ := exists_cons_of_scanTag hs hc
    have hcs := scanTag_append (c :: cs)
    rw [hs] at hcs
    dsimp only at hcs
    exact .prepending (.token (.tag hc (by rwa [hcs])) (hrest.trans hcs.symm)) (ih hl) rfl
  -- A class or an id.
  | case5 _ started cursor _ c cs hrest _ hc name kind =>
    rename_i ih
    obtain ⟨line, hl, rfl⟩ := map_eq_ok.1 h
    simp only [Bool.and_eq_true, Bool.or_eq_true, beq_iff_eq] at hc
    have hmarker : LiteralMarker c kind := by
      rcases hc.1 with rfl | rfl
      · exact .className
      · exact .id
    have hmove : Move ⟨.head started, levels⟩ (.token (kind (String.ofList name)) (c :: name))
        (cs.dropWhile isLiteralChar) ⟨.head true, levels⟩ :=
      .literal hmarker (takeWhile_ne_nil hc.2) (fun c hc => List.mem_takeWhile_imp hc)
        (head?_dropWhile_eq_false _ _)
    refine .prepending (.token hmove ?_) (ih hl) rfl
    rw [hrest, List.cons_append, List.takeWhile_append_dropWhile]
  -- A dot at the end of the line.
  | case6 _ _ cursor _ c cs hrest _ _ hc blanks rest =>
    rename_i hend
    cases h
    obtain rfl := beq_iff_eq.1 hc
    exact .tokenSkip (.dot (fun c hc => List.mem_takeWhile_imp hc) hend)
      (hrest.trans (congrArg _ List.takeWhile_append_dropWhile.symm))
  | case7 => cases h
  -- A list of attributes.
  | case8 _ started cursor _ c cs hrest _ _ _ hc opened =>
    rename_i ih
    obtain ⟨⟨attributes, closed⟩, ha, h⟩ := bind_eq_ok.1 h
    obtain ⟨line, hl, h⟩ := bind_eq_ok.1 h
    cases h
    simp only [Bool.and_eq_true, beq_iff_eq] at hc
    obtain ⟨rfl, rfl⟩ := hc
    have hopen : Goes ⟨.head true, levels⟩ cursor [cursor.token .startAttributes ['(']]
        ⟨.list, levels⟩ opened := .token .opens hrest
    exact .prepending (hopen.trans (goes_readAttributes ha levels)) (ih closed hl) rfl
  -- A spread of attributes.
  | case9 _ started cursor _ c cs hrest _ _ _ _ hc marker start =>
    rename_i ih
    obtain ⟨⟨group, rest⟩, hg, h⟩ := bind_eq_ok.1 h
    obtain ⟨line, hl, h⟩ := bind_eq_ok.1 h
    cases h
    simp only [Bool.and_eq_true] at hc
    obtain ⟨rfl, hprefix⟩ := hc
    obtain ⟨behind, hmarker⟩ := List.isPrefixOf_iff_prefix.1 hprefix
    have hcs : cs.drop (marker.length - 1) = behind := by
      have hdrop := congrArg (List.drop marker.length) hmarker
      rw [List.drop_left] at hdrop
      exact hdrop.symm
    have hgroup : IsGroup group := fun start place rest' => scanGroup_append hg rfl rest' place
    have hbehind : behind = group ++ rest := hcs ▸ (eq_append_of_scanGroup hg).1
    refine .prepending (.token (.spread hgroup) ?_) (ih _ _ hl) rfl
    rw [hrest, ← hmarker, hbehind, List.append_assoc]
  -- The colon in front of a nested element.
  | case10 _ started cursor _ c cs hrest _ _ _ _ _ hc blanks =>
    rename_i ih
    obtain ⟨line, hl, rfl⟩ := map_eq_ok.1 h
    simp only [Bool.and_eq_true, beq_iff_eq] at hc
    obtain ⟨⟨rfl, rfl⟩, hblank⟩ := hc
    have hmove : Move ⟨.head true, levels⟩ ⟨[], [.colon], [':'], blanks⟩
        (cs.dropWhile isInlineBlank) ⟨.head false, levels⟩ :=
      .colon (takeWhile_ne_nil hblank) (fun c hc => List.mem_takeWhile_imp hc)
        (head?_dropWhile_eq_false _ _)
    refine .prepending (.tokenSkip hmove ?_) (ih hl) rfl
    exact hrest.trans (congrArg _ List.takeWhile_append_dropWhile.symm)
  -- The slash that ends an element.
  | case11 _ started cursor _ c cs hrest _ _ _ _ _ _ hc ih =>
    obtain ⟨line, hl, rfl⟩ := map_eq_ok.1 h
    simp only [Bool.and_eq_true, beq_iff_eq] at hc
    obtain ⟨⟨rfl, rfl⟩, hend⟩ := hc
    exact .prepending (.token (.slash hend) hrest) (ih hl) rfl
  -- Code behind `=` or `!=`.
  | case12 _ started cursor _ c cs hrest _ _ _ _ _ _ _ hc =>
    cases h
    simp only [Bool.and_eq_true, beq_iff_eq] at hc
    obtain ⟨rfl, rfl⟩ := hc
    exact goes_readCode (.inl rfl) hrest .code
  | case13 _ started cursor _ c cs hrest _ _ _ _ _ _ _ _ hc =>
    cases h
    simp only [Bool.and_eq_true, beq_iff_eq] at hc
    obtain ⟨⟨rfl, rfl⟩, hsecond⟩ := hc
    obtain ⟨ds, rfl⟩ := List.head?_eq_some_iff.1 hsecond
    exact goes_readCode (.inr rfl) hrest .code
  -- Text, of which blanks alone are none.
  | case14 _ started cursor _ c cs hrest _ _ _ _ _ _ _ _ _ hc text rest hs hblank =>
    cases h
    obtain ⟨hline, rfl, _⟩ := isLine_splitLine hs
    simp only [Bool.and_eq_true] at hc
    obtain ⟨rfl, hc⟩ := hc
    exact .blank (.trailing hc hline hblank) hrest
  | case15 _ started cursor _ c cs hrest _ _ _ _ _ _ _ _ _ hc text rest hs hblank =>
    cases h
    obtain ⟨hline, rfl, _⟩ := isLine_splitLine hs
    simp only [Bool.and_eq_true] at hc
    obtain ⟨rfl, hc⟩ := hc
    rw [readText_eq hs]
    exact .skipToken (.text hc hline (Bool.eq_false_iff.2 hblank)) hrest
  -- Text that starts with an interpolation.
  | case16 _ started cursor _ c cs hrest _ hliteral _ _ _ _ _ _ _ _ hc =>
    cases h
    simp only [Bool.and_eq_true, Bool.not_eq_true', beq_iff_eq] at hc
    obtain ⟨rfl, rfl⟩ := hc
    obtain ⟨⟨text, rest⟩, hs⟩ : ∃ found, splitLine cursor.rest = found := ⟨_, rfl⟩
    obtain ⟨hline, hrest', _⟩ := isLine_splitLine hs
    obtain ⟨line, rfl⟩ : ∃ line, text = '#' :: line := by
      rw [hrest, splitLine_cons (by rfl)] at hs
      cases hs
      exact ⟨_, rfl⟩
    have hhead : line.head?.any isLiteralChar = false := by
      rw [hrest', List.cons_append, List.cons.injEq] at hrest
      rcases line with _ | ⟨d, line⟩
      · rfl
      · rw [← hrest.2] at hliteral
        simpa using hliteral
    rw [readText_eq hs]
    exact .token (.interpolation hhead hline) hrest'
  | case17 => cases h

/-! ### Lines -/

/-- A line without a break in its marker starts with the marker. -/
theorem exists_isLine (marker : List Char) {cs : List Char} (h : cursor.rest = marker ++ cs)
    (hm : ∀ c ∈ marker, c ≠ '\n' ∧ c ≠ '\r') :
    ∃ line rest, splitLine cursor.rest = (marker ++ line, rest) ∧ cs = line ++ rest ∧
      IsLine (marker ++ line) rest := by
  obtain ⟨line, hline⟩ := exists_line_eq_append h hm
  obtain ⟨⟨text, rest⟩, hs⟩ : ∃ found, splitLine cursor.rest = found := ⟨_, rfl⟩
  rw [hs] at hline
  dsimp only at hline
  subst hline
  obtain ⟨hisLine, hrest, _⟩ := isLine_splitLine hs
  rw [h, List.append_assoc] at hrest
  exact ⟨line, rest, hs, List.append_cancel_left hrest, hisLine⟩

/-- A line that is one token. -/
theorem goesLine_whole {levels : List Nat} {kind : TokenKind} {text rest : List Char}
    {opensBlock : Bool} (hs : splitLine cursor.rest = (text, rest))
    (h : WholeLine text kind opensBlock) :
    GoesLine ⟨.content, levels⟩ cursor (lastToken cursor kind text rest opensBlock) := by
  obtain ⟨hline, hrest, _⟩ := isLine_splitLine hs
  exact .token (.whole h hline) hrest

/-- The content of a line is read along a path. -/
theorem goes_readLine {line : LineTokens} (h : readLine cursor = .ok line)
    (hne : cursor.rest ≠ []) (levels : List Nat) :
    GoesLine ⟨.content, levels⟩ cursor line := by
  revert h
  fun_cases readLine cursor with
  | case1 text rest hs hrest => exact absurd hrest hne
  -- Text behind a bar.
  | case2 text rest hs cs hrest =>
    intro h
    cases h
    obtain ⟨⟨line, rest⟩, hs⟩ : ∃ found, splitLine cs = found := ⟨_, rfl⟩
    obtain ⟨hline, rfl, _⟩ := isLine_splitLine hs
    rw [readText_eq hs]
    exact .skipToken (.bar (.inl rfl) hline) hrest
  | case3 text rest hs cs hbar hrest =>
    intro h
    cases h
    obtain ⟨⟨line, rest⟩, hs⟩ : ∃ found, splitLine cs = found := ⟨_, rfl⟩
    obtain ⟨hline, rfl, _⟩ := isLine_splitLine hs
    have hblank : line.head? ≠ some ' ' := by
      intro hblank
      obtain ⟨ds, rfl⟩ := List.head?_eq_some_iff.1 hblank
      exact hbar _ rfl
    rw [readText_eq hs]
    exact .skipToken (.bar (.inr ⟨rfl, hblank⟩) hline) hrest
  -- Markup and comments.
  | case4 text rest hs cs hrest =>
    intro h
    cases h
    obtain ⟨line, rest', hs', _⟩ := exists_isLine ['<'] hrest (by simp)
    rw [hs] at hs'
    cases hs'
    exact goesLine_whole hs .html
  | case5 text rest hs cs hrest =>
    intro h
    cases h
    obtain ⟨line, rest', hs', _⟩ := exists_isLine ['/', '/', '-'] hrest (by simp)
    rw [hs] at hs'
    cases hs'
    exact goesLine_whole hs .hiddenComment
  | case6 text rest hs cs hhidden hrest =>
    intro h
    cases h
    obtain ⟨line, rest', hs', rfl, _⟩ := exists_isLine ['/', '/'] hrest (by simp)
    rw [hs] at hs'
    cases hs'
    refine goesLine_whole hs (.comment ?_)
    intro hdash
    obtain ⟨ds, rfl⟩ := List.head?_eq_some_iff.1 hdash
    exact hhidden _ rfl
  -- Code.
  | case7 text rest hs cs hrest =>
    intro h
    cases h
    obtain ⟨line, rest', hs', _⟩ := exists_isLine ['-'] hrest (by simp)
    rw [hs] at hs'
    cases hs'
    rw [readCode, hs]
    exact goesLine_whole hs .code
  | case8 text rest hs cs hrest =>
    intro h
    cases h
    exact goes_readCode (.inl rfl) hrest fun h => .whole (.shownCode h)
  | case9 text rest hs cs hrest =>
    intro h
    cases h
    exact goes_readCode (.inr rfl) hrest fun h => .whole (.shownCode h)
  -- The use of a mixin, and its attributes.
  | case10 =>
    intro h
    cases h
  | case11 element text rest hs cs hrest name hname =>
    intro h
    obtain ⟨line, hl, rfl⟩ := map_eq_ok.1 h
    have hmove : Move ⟨.content, levels⟩ (.token (.call (String.ofList name)) ('+' :: name))
        (cs.dropWhile isLiteralChar) ⟨.head true, levels⟩ :=
      .call (by simpa using hname) (fun c hc => List.mem_takeWhile_imp hc)
        (head?_dropWhile_eq_false _ _)
    refine .prepending (.token hmove ?_) (goes_readElement hl levels) rfl
    rw [hrest, List.cons_append, List.takeWhile_append_dropWhile]
  -- Keywords, and elements.
  | case12 text rest hs kind hk =>
    intro h
    cases h
    exact goesLine_whole hs (.keyword hk)
  | case13 element text rest hs hword _ _ hbar hmarkup _ hcomment hcode hescaped hraw hcall =>
    intro h
    have hstarts : StartsElement cursor.rest := by
      refine ⟨hne, ?_, ?_, ?_, by rw [hs]; exact hword⟩
      · intro c hc hmarker
        obtain ⟨cs, hrest⟩ := List.head?_eq_some_iff.1 hc
        simp only [List.mem_cons, List.not_mem_nil, or_false] at hmarker
        rcases hmarker with rfl | rfl | rfl | rfl | rfl
        · exact hbar cs hrest
        · exact hmarkup cs hrest
        · exact hcode cs hrest
        · exact hescaped cs hrest
        · exact hcall cs hrest
      · rintro ⟨cs, hrest⟩
        exact hcomment cs hrest.symm
      · rintro ⟨cs, hrest⟩
        exact hraw cs hrest.symm
    exact (Goes.idle (.element hstarts)).trans (goes_readElement h levels)

/-! ### Blocks of lines -/

theorem ne_newline_of_isInlineBlank {c : Char} (h : isInlineBlank c = true) : c ≠ '\n' := by
  rintro rfl
  exact absurd h (by decide)

/-- A line break behind blanks leads to the start of the next line. -/
theorem after_blank_line {line : Nat} {blanks ending : List Char}
    (hb : ∀ c ∈ blanks, isInlineBlank c = true) (he : ending = ['\n'] ∨ ending = ['\r', '\n'])
    (column : Nat) :
    (⟨line, column⟩ : Position).after (blanks ++ ending) = ⟨line + 1, 1⟩ := by
  have hline : ((⟨line, column⟩ : Position).after blanks).line = line := by
    rw [Position.line_after, List.count_eq_zero_of_not_mem, Nat.add_zero]
    exact fun hn => ne_newline_of_isInlineBlank (hb _ hn) rfl
  rw [Position.after_append]
  rcases he with rfl | rfl
  · simp [Position.next, hline]
  · simp [Position.next, hline]

/-- The lines that are passed over in front of the next one with content. -/
theorem seekContent_skipped {line line' : Nat} {lineStart seen cs text : List Char}
    (h : seekContent line lineStart cs = (line', text)) (hl : lineStart = seen ++ cs)
    (hseen : ∀ c ∈ seen, isInlineBlank c = true) :
    ∃ lines, lineStart = lines ++ text ∧ SkippedLines lines ∧
      (text.dropWhile isInlineBlank = [] ∨ Marked (text.dropWhile isInlineBlank)) := by
  fun_induction seekContent line lineStart cs generalizing seen with
  | case1 =>
    cases h
    refine ⟨[], rfl, .nil, .inl ?_⟩
    rw [hl, List.append_nil, List.dropWhile_eq_nil_iff]
    exact hseen
  | case2 line lineStart cs ih =>
    obtain ⟨lines, hcs, hlines, hmarked⟩ := ih h (List.nil_append cs).symm (by simp)
    refine ⟨seen ++ (['\n'] ++ lines), ?_, .cons hseen (.inl rfl) hlines, hmarked⟩
    rw [hl, List.append_assoc, List.append_assoc, ← hcs, List.singleton_append]
  | case3 line lineStart cs ih =>
    obtain ⟨lines, hcs, hlines, hmarked⟩ := ih h (List.nil_append cs).symm (by simp)
    refine ⟨seen ++ (['\r', '\n'] ++ lines), ?_, .cons hseen (.inr rfl) hlines, hmarked⟩
    rw [hl, List.append_assoc, List.append_assoc, ← hcs]
    rfl
  | case4 line lineStart c cs _ _ hblank ih =>
    have hl' : lineStart = seen ++ [c] ++ cs := by
      rw [hl, List.append_assoc, List.singleton_append]
    refine ih h hl' fun d hd => ?_
    rcases List.mem_append.1 hd with hd | hd
    · exact hseen d hd
    · exact List.mem_singleton.1 hd ▸ hblank
  | case5 line lineStart c cs hlf hcrlf hblank =>
    cases h
    refine ⟨[], rfl, .nil, .inr ?_⟩
    rw [hl, List.dropWhile_append_of_pos hseen, List.dropWhile_cons_of_neg hblank]
    refine ⟨?_, ?_⟩
    · rw [isLineEnd]
      · exact List.cons_ne_nil _ _
      · rintro ds ⟨⟩
        exact hlf rfl
      · rintro ds ⟨⟩
        exact hcrlf _ rfl rfl
    · rintro d ⟨⟩
      exact Bool.eq_false_iff.2 hblank

theorem seekContent_content {content : List Char} (h : content = [] ∨ Marked content)
    (line : Nat) (start : List Char) : seekContent line start content = (line, start) := by
  rcases h with rfl | ⟨hend, hblank⟩
  · rfl
  · unfold seekContent
    split
    · rfl
    · cases hend
    · cases hend
    · rename_i c cs _ _
      rw [if_neg (by rw [hblank c rfl]; nofun)]

/-- The next line with content, and where it starts. -/
theorem nextLine_of_ahead {lines indentation content : List Char}
    (h : Ahead lines indentation content) (place : Position) :
    ∃ line, nextLine ⟨place, lines ++ (indentation ++ content)⟩ = (line, indentation, content) ∧
      (lines ≠ [] → place.after lines = ⟨line, 1⟩) := by
  obtain ⟨hlines, hblank, hmarked⟩ := h
  have hseek : ∃ line, seekContent place.line (lines ++ (indentation ++ content))
      (lines ++ (indentation ++ content)) = (line, indentation ++ content) ∧
      (lines = [] ∧ line = place.line ∨ place.after lines = ⟨line, 1⟩) := by
    induction hlines generalizing place with
    | nil =>
      rw [List.nil_append, seekContent_blanks hblank, seekContent_content hmarked]
      exact ⟨place.line, rfl, .inl ⟨rfl, rfl⟩⟩
    | @cons blanks ending more hblanks hending hmore ih =>
      have hafter : place.after (blanks ++ ending) = ⟨place.line + 1, 1⟩ :=
        after_blank_line hblanks hending place.column
      obtain ⟨line, hline, hplace⟩ := ih ⟨place.line + 1, 1⟩
      have hbreak : ∀ start cs, seekContent place.line start (ending ++ cs) =
          seekContent (place.line + 1) cs cs := by
        rcases hending with rfl | rfl <;> exact fun _ _ => rfl
      refine ⟨line, ?_, .inr ?_⟩
      · rw [List.append_assoc, List.append_assoc, seekContent_blanks hblanks, hbreak, hline]
      · rw [← List.append_assoc, Position.after_append, hafter]
        rcases hplace with ⟨rfl, rfl⟩ | hplace
        · rfl
        · exact hplace
  obtain ⟨line, hline, hplace⟩ := hseek
  have hhead : ∀ c ∈ content.head?, isInlineBlank c = false := by
    rcases hmarked with rfl | hmarked
    · exact nofun
    · exact hmarked.2
  obtain ⟨htake, hdrop⟩ := takeWhile_append_stop hblank hhead
  refine ⟨line, ?_, fun hne => hplace.resolve_left fun h => hne h.1⟩
  rw [nextLine]
  dsimp only
  rw [hline]
  dsimp only
  rw [htake, hdrop]

theorem exists_ahead {line : Nat} {indentation content : List Char}
    (h : nextLine cursor = (line, indentation, content)) :
    ∃ lines, cursor.rest = lines ++ (indentation ++ content) ∧ Ahead lines indentation content := by
  obtain ⟨⟨line', text⟩, htext⟩ :
      ∃ found, seekContent cursor.place.line cursor.rest cursor.rest = found := ⟨_, rfl⟩
  rw [nextLine, htext] at h
  cases h
  obtain ⟨lines, hrest, hlines, hmarked⟩ :=
    seekContent_skipped htext (List.nil_append _).symm (List.forall_mem_nil _)
  refine ⟨lines, ?_, hlines, fun c hc => List.mem_takeWhile_imp hc, hmarked⟩
  rw [hrest, List.takeWhile_append_dropWhile]

/-- The line ahead is found in one way. -/
theorem Ahead.unique {lines lines' indentation indentation' content content' : List Char}
    (h : Ahead lines indentation content) (h' : Ahead lines' indentation' content')
    (heq : lines ++ (indentation ++ content) = lines' ++ (indentation' ++ content')) :
    indentation = indentation' ∧ content = content' := by
  obtain ⟨line, hnext, -⟩ := nextLine_of_ahead h .first
  obtain ⟨line', hnext', -⟩ := nextLine_of_ahead h' .first
  rw [heq, hnext'] at hnext
  cases hnext
  exact ⟨rfl, rfl⟩

/-- At the end of a line that is not the last one, there are lines to pass over. -/
theorem Ahead.ne_nil {lines indentation content : List Char} (h : Ahead lines indentation content)
    (hend : isLineEnd (lines ++ (indentation ++ content)) = true)
    (hne : lines ++ (indentation ++ content) ≠ []) : lines ≠ [] := by
  rintro rfl
  rw [List.nil_append] at hend hne
  cases indentation with
  | nil =>
    have hmarked := h.marked.resolve_left hne
    exact Bool.noConfusion (hmarked.1.symm.trans hend)
  | cons c indentation =>
    have hc := isLineEnd_cons_of_isInlineBlank (h.blank c List.mem_cons_self)
      (indentation ++ content)
    exact Bool.noConfusion (hc.symm.trans hend)

/-- The next line behind the end of a line: what is passed over, and where it starts. -/
theorem ahead_nextLine {line : Nat} {indentation content : List Char}
    (h : nextLine cursor = (line, indentation, content)) (hend : isLineEnd cursor.rest = true)
    (hne : cursor.rest ≠ []) :
    ∃ lines, cursor.rest = lines ++ (indentation ++ content) ∧ Ahead lines indentation content ∧
      lines ≠ [] ∧ cursor.place.after lines = ⟨line, 1⟩ := by
  obtain ⟨lines, hrest, hahead⟩ := exists_ahead h
  have hlines := hahead.ne_nil (hrest ▸ hend) (hrest ▸ hne)
  obtain ⟨line', hnext, hplace⟩ := nextLine_of_ahead hahead cursor.place
  rw [← hrest, h] at hnext
  cases hnext
  exact ⟨lines, hrest, hahead, hlines, hplace hlines⟩

/-- The next line with content is behind the end of this one. -/
theorem length_nextLine_lt {line : Nat} {indentation content : List Char}
    (h : nextLine cursor = (line, indentation, content)) (hend : isLineEnd cursor.rest = true)
    (hne : cursor.rest ≠ []) : (indentation ++ content).length < cursor.rest.length := by
  obtain ⟨lines, hrest, -, hlines, -⟩ := ahead_nextLine h hend hne
  have hpos := List.length_pos_iff.2 hlines
  simp only [hrest, List.length_append]
  omega

/-- At the end of a template no line with content follows. -/
theorem nextLine_of_rest_eq_nil (h : cursor.rest = []) :
    nextLine cursor = (cursor.place.line, [], []) := by
  rw [nextLine, h, seekContent]
  rfl

theorem rest_ne_nil_of_nextLine {line : Nat} {indentation content : List Char}
    (h : nextLine cursor = (line, indentation, content)) (hcontent : content ≠ []) :
    cursor.rest ≠ [] := by
  intro hnil
  rw [nextLine_of_rest_eq_nil hnil] at h
  cases h
  exact hcontent rfl

/-- No deeper line follows. -/
def NoDeeper (cursor : Cursor) (width : Nat) : Prop :=
  (nextLine cursor).2.2 = [] ∨ (nextLine cursor).2.1.length ≤ width

theorem noDeeper_of_nextLine {width line : Nat} {indentation content : List Char}
    (h : nextLine cursor = (line, indentation, content))
    (hcontent : (content.isEmpty || decide (indentation.length ≤ width)) = true) :
    NoDeeper cursor width := by
  rw [Bool.or_eq_true, List.isEmpty_iff, decide_eq_true_iff] at hcontent
  rwa [NoDeeper, h]

/-- The indentation of a line. -/
theorem indents_readIndentation {levels levels' : List Nat} {line : Nat}
    {indentation : List Char} {tokens : List Token}
    (h : readIndentation levels line indentation = .ok (tokens, levels')) :
    ∃ kinds, Indents levels indentation.length kinds levels' ∧
      tokens = kinds.map fun kind =>
        ⟨kind, ⟨line, 1⟩, (⟨line, 1⟩ : Position).after indentation⟩ := by
  rw [readIndentation] at h
  dsimp only at h
  split at h
  · rename_i hdeeper
    cases h
    exact ⟨_, .deeper hdeeper, rfl⟩
  rename_i hdeeper
  split at h
  · rename_i hshallower
    obtain ⟨⟨remaining, n⟩, hclose⟩ : ∃ found, closeLevels indentation.length levels = found :=
      ⟨_, rfl⟩
    rw [hclose] at h
    dsimp only at h
    split at h
    · rename_i hrestored
      cases h
      obtain ⟨closed, rfl, rfl, hclosed⟩ := closeLevels_eq hclose
      have hwidth := beq_iff_eq.1 hrestored
      refine ⟨_, .outer ?_ hwidth.symm hclosed, by rw [List.map_replicate]; rfl⟩
      rintro rfl
      rw [List.nil_append, ← hwidth] at hshallower
      exact Nat.lt_irrefl _ hshallower
    · cases h
  · rename_i hshallower
    cases h
    exact ⟨_, .same (by omega), rfl⟩

/-- Where the lines of a block of raw text start, by the indentation of the first of
    them. -/
def rawStage : Option Nat → Stage
  | none => .lineEnd true
  | some base => .rawEnd base

/-- A block of raw text is read along a path. Where no line is deeper, none is read. -/
theorem goes_readRawLines {fuel : Nat} {base : Option Nat} {levels : List Nat}
    {tokens : List Token}
    (h : readRawLines (levels.headD 0) fuel base cursor = (tokens, stop))
    (hend : isLineEnd cursor.rest = true) (hfuel : cursor.rest.length < fuel) :
    ∃ opensBlock, (opensBlock = true → NoDeeper stop (levels.headD 0)) ∧
      Goes ⟨rawStage base, levels⟩ cursor tokens ⟨.lineEnd opensBlock, levels⟩ stop := by
  generalize hparent : levels.headD 0 = parent at h
  fun_induction readRawLines parent fuel base cursor generalizing tokens stop with
  | case1 => exact absurd hfuel (Nat.not_lt_zero _)
  | case2 _ cursor line indentation content hnext hcontent base =>
    cases h
    obtain ⟨lines, hrest, hahead⟩ := exists_ahead hnext
    rw [Bool.or_eq_true, List.isEmpty_iff, decide_eq_true_iff, ← hparent] at hcontent
    have hmove : Move ⟨.rawEnd base, levels⟩ (.token .endRawText []) cursor.rest
        ⟨.lineEnd false, levels⟩ := hrest ▸ .rawClose hahead hcontent
    exact ⟨false, Bool.noConfusion, .token hmove rfl⟩
  | case3 _ cursor line indentation content hnext hcontent =>
    cases h
    exact ⟨true, fun _ => noDeeper_of_nextLine hnext (hparent ▸ hcontent), .refl⟩
  | case4 _ base cursor line indentation content hnext hcontent column start here opening text =>
    rename_i others middle _ ih
    cases h
    rw [Bool.or_eq_true, List.isEmpty_iff, decide_eq_true_iff, not_or, Nat.not_le, ← hparent]
      at hcontent
    obtain ⟨lines, hrest, hahead, hlines, hplace⟩ :=
      ahead_nextLine hnext hend (rest_ne_nil_of_nextLine hnext hcontent.1)
    have htake : indentation ++ content =
        indentation.take column ++ (indentation.drop column ++ content) := by
      rw [← List.append_assoc, List.take_append_drop]
    -- The first line opens the block, and the others start lines of it.
    have hopening : Goes ⟨rawStage base, levels⟩ cursor [opening]
        ⟨.rawLine (base.getD column), levels⟩ here := by
      cases base with
      | none =>
        have hgoes :
            Goes ⟨.lineEnd true, levels⟩ cursor _ ⟨.rawLine indentation.length, levels⟩ _ :=
          .skipToken (.raw hahead hlines hcontent.1 hcontent.2)
            (hrest.trans (List.append_assoc ..).symm)
        have hcolumn : column = indentation.length := Nat.min_self _
        have hhere : here = (cursor.advance (lines ++ indentation) content).advance [] content := by
          simp [here, start, Cursor.advance, hcolumn, Position.after_append, hplace]
        have hopening : opening = here.token .startRawText [] := rfl
        rw [hopening, hhere, Option.getD_none, hcolumn]
        exact hgoes
      | some base =>
        have hgoes : Goes ⟨.rawEnd base, levels⟩ cursor _ ⟨.rawLine base, levels⟩ _ :=
          .skipToken (.rawNext hahead hlines hcontent.1 hcontent.2)
            (hrest.trans (congrArg _ htake))
        have hstart : start = cursor.advance lines (indentation ++ content) :=
          congrArg (fun place => (⟨place, indentation ++ content⟩ : Cursor)) hplace.symm
        have hopening : opening = start.token .newline (indentation.take column) := rfl
        have hhere : here = start.advance (indentation.take column)
          (indentation.drop column ++ content) := rfl
        rw [hopening, hhere, hstart]
        exact hgoes
    obtain ⟨hline, hhere, hend'⟩ := isLine_splitLine (Eq.refl (splitLine here.rest))
    have htext : Goes ⟨.rawLine (base.getD column), levels⟩ here text.tokens
        ⟨.rawEnd (base.getD column), levels⟩ text.cursor := .token (.rawText hline) hhere
    have hshorter : text.cursor.rest.length < cursor.rest.length := by
      have hlength := congrArg List.length hhere
      have hle : here.rest.length ≤ (indentation ++ content).length := by
        rw [htake, List.length_append]
        exact Nat.le_add_left _ _
      have hpos := List.length_pos_iff.2 hlines
      rw [hrest]
      change (splitLine here.rest).2.length < _
      rw [List.length_append] at hlength ⊢
      omega
    obtain ⟨opensBlock, hdeeper, hothers⟩ := ih hend' (by omega) ‹_›
    exact ⟨opensBlock, hdeeper, (hopening.trans htext).trans hothers⟩


/-- At the end of a template nothing is left. -/
theorem goes_finish {levels : List Nat} {opensBlock : Bool} {lines indentation : List Char}
    (h : Ahead lines indentation []) (hne : lines = [] → indentation = [])
    (hrest : cursor.rest = lines ++ indentation)
    (hstop : stop = cursor.advance (lines ++ indentation) []) :
    Goes ⟨.lineEnd opensBlock, levels⟩ cursor (finish levels stop) ⟨.done, []⟩ stop := by
  refine .move (.finish h hne) (by simp [Piece.text, hrest]) ?_ (by simp [Piece.text, hstop])
  simp [hstop, finish, Piece.tokens, Cursor.token, Cursor.advance, List.map_const']

/-- The lines behind the end of a line are read along a path. -/
theorem goes_readLines {fuel : Nat} {levels : List Nat} {opensBlock : Bool} {tokens : List Token}
    (h : readLines fuel levels opensBlock cursor = .ok tokens)
    (hend : isLineEnd cursor.rest = true) (hfuel : cursor.rest.length < fuel) :
    ∃ stop, stop.rest = [] ∧ Goes ⟨.lineEnd opensBlock, levels⟩ cursor tokens ⟨.done, []⟩ stop := by
  induction fuel generalizing levels opensBlock cursor tokens with
  | zero => exact absurd hfuel (Nat.not_lt_zero _)
  | succ fuel ih =>
    obtain ⟨⟨raw, middle⟩, hraw⟩ : ∃ found, (if opensBlock then
        readRawLines (levels.headD 0) (cursor.rest.length + 1) none cursor
      else ([], cursor)) = found := ⟨_, rfl⟩
    -- A block of raw text in front of the next line.
    obtain ⟨opens, hdeeper, hgoes, hend'⟩ :
        ∃ opens, (opens = true → NoDeeper middle (levels.headD 0)) ∧
        Goes ⟨.lineEnd opensBlock, levels⟩ cursor raw ⟨.lineEnd opens, levels⟩ middle ∧
        isLineEnd middle.rest = true := by
      split at hraw
      · rename_i hopens
        obtain ⟨opens, hdeeper, hgoes⟩ := goes_readRawLines hraw hend (Nat.lt_succ_self _)
        exact ⟨opens, hdeeper, hopens ▸ hgoes, hgoes.endsLine (fun _ => hend) trivial⟩
      · rename_i hopens
        cases hraw
        exact ⟨opensBlock, fun h => absurd h hopens, .refl, hend⟩
    obtain ⟨⟨line, indentation, content⟩, hnext⟩ : ∃ found, nextLine middle = found := ⟨_, rfl⟩
    rw [readLines, hraw] at h
    dsimp only at h
    rw [hnext] at h
    dsimp only at h
    split at h
    · rename_i hempty
      cases h
      rw [List.isEmpty_iff] at hempty
      have hahead : Ahead [] [] [] := ⟨.nil, List.forall_mem_nil _, .inl rfl⟩
      have hstop : middle = middle.advance ([] ++ []) [] := congrArg (Cursor.mk middle.place) hempty
      exact ⟨middle, hempty, hgoes.trans (goes_finish hahead (fun _ => rfl) hempty hstop)⟩
    rename_i hne
    obtain ⟨lines, hrest, hahead, hlines, hplace⟩ :=
      ahead_nextLine hnext hend' (by simpa using hne)
    split at h
    · rename_i hempty
      cases h
      obtain rfl := List.isEmpty_iff.1 hempty
      rw [List.append_nil] at hrest
      refine ⟨_, rfl, hgoes.trans (goes_finish hahead (fun h => absurd h hlines) hrest ?_)⟩
      rw [Cursor.advance, Cursor.advance, Position.after_append, hplace]
    · rename_i hcontent
      obtain ⟨⟨depth, levels'⟩, hd, h⟩ := bind_eq_ok.1 h
      obtain ⟨body, hb, h⟩ := bind_eq_ok.1 h
      obtain ⟨others, ho, h⟩ := bind_eq_ok.1 h
      cases h
      rw [List.isEmpty_iff] at hcontent
      obtain ⟨kinds, hindents, rfl⟩ := indents_readIndentation hd
      have hwidth : opens = true → indentation.length ≤ levels.headD 0 := by
        intro hopens
        have hdeeper := hdeeper hopens
        rw [NoDeeper, hnext] at hdeeper
        exact hdeeper.resolve_left hcontent
      have hline : Goes ⟨.lineEnd opens, levels⟩ middle
          (kinds.map fun kind => ⟨kind, ⟨line, 1⟩, (⟨line, 1⟩ : Position).after indentation⟩)
          ⟨.content, levels'⟩ ⟨(⟨line, 1⟩ : Position).after indentation, content⟩ := by
        refine .move (.next hahead hlines hcontent hwidth hindents) ?_ ?_ ?_
        · simp [Piece.text, hrest]
        · simp [Piece.tokens, hplace]
        · simp [Piece.text, Cursor.advance, Position.after_append, hplace]
      have hbody := goes_readLine hb hcontent levels'
      have hshorter : body.cursor.rest.length < fuel := by
        have hmiddle := hgoes.length_le
        have hlength := length_nextLine_lt hnext hend' (by simpa using hne)
        have hcontent : body.cursor.rest.length ≤ content.length := hbody.length_le
        rw [List.length_append] at hlength
        omega
      obtain ⟨stop, hstop, hothers⟩ := ih ho (hbody.endsLine False.elim trivial) hshorter
      refine ⟨stop, hstop, ?_⟩
      rw [List.append_assoc, List.append_assoc, ← List.append_assoc (kinds.map _)]
      exact hgoes.trans ((hline.trans hbody).trans hothers)

/-- The first line is read from behind a byte order mark and its indentation. -/
theorem firstContent_eq (text : List Char) :
    ∃ skipped, text = skipped ++ (firstContent text).rest ∧
      (firstContent text).place = Position.first.after skipped := by
  -- A mark at the start of the text is skipped first.
  obtain ⟨mark, behind, rfl, heq⟩ : ∃ mark behind, text = mark ++ behind ∧
      firstContent text = (⟨Position.first.after mark, behind⟩ : Cursor).advance
        (behind.takeWhile isInlineBlank) (behind.dropWhile isInlineBlank) := by
    unfold firstContent
    split
    · exact ⟨['\ufeff'], _, rfl, rfl⟩
    · exact ⟨[], text, rfl, rfl⟩
  rw [heq]
  refine ⟨mark ++ behind.takeWhile isInlineBlank, ?_, (Position.after_append ..).symm⟩
  rw [List.append_assoc]
  exact congrArg (mark ++ ·) List.takeWhile_append_dropWhile.symm

end Lexer

open Lexer

/-- A template is read along a path from its start to its end. -/
theorem exists_path_tokenize {template : String} {tokens : List Token}
    (h : tokenize template = .ok tokens) :
    ∃ pieces, Path ⟨.start, []⟩ pieces [] ⟨.done, []⟩ ∧ textOf pieces = template.toList ∧
      tokens = tokensFrom .first pieces := by
  obtain ⟨taken, htaken, hplace⟩ := firstContent_eq template.toList
  obtain ⟨start, hstart⟩ : ∃ start, firstContent template.toList = start := ⟨_, rfl⟩
  rw [hstart] at htaken hplace
  have hfirst : Goes ⟨.start, []⟩ ⟨.first, template.toList⟩ []
      ⟨if isLineEnd start.rest then .lineEnd false else .content, []⟩ start := by
    have htext : template.toList = taken ++ start.rest := htaken
    have hmove : Move ⟨.start, []⟩ (.blank taken) start.rest
        ⟨if isLineEnd start.rest then .lineEnd false else .content, []⟩ :=
      .start (by rw [← htext, hstart])
    refine .move hmove (by rw [Piece.text_blank, htext]) rfl ?_
    rw [Piece.text_blank]
    exact congrArg (Cursor.mk · start.rest) hplace
  have hlength := hfirst.length_le
  obtain ⟨stop, hstop, hgoes⟩ : ∃ stop, stop.rest = [] ∧
      Goes ⟨.start, []⟩ ⟨.first, template.toList⟩ tokens ⟨.done, []⟩ stop := by
    rw [tokenize, Lexer.read] at h
    dsimp only at h
    rw [hstart] at h
    split at h
    · rename_i hend
      obtain ⟨line, hl, h⟩ := bind_eq_ok.1 h
      obtain ⟨others, ho, h⟩ := bind_eq_ok.1 h
      cases hl
      cases h
      obtain ⟨stop, hstop, hothers⟩ := goes_readLines ho hend (Nat.lt_succ_of_le hlength)
      rw [if_pos hend] at hfirst
      exact ⟨stop, hstop, hfirst.trans hothers⟩
    · rename_i hend
      obtain ⟨line, hl, h⟩ := bind_eq_ok.1 h
      obtain ⟨others, ho, h⟩ := bind_eq_ok.1 h
      cases h
      have hne : start.rest ≠ [] := fun hnil => hend (by rw [hnil]; rfl)
      rw [if_neg hend] at hfirst
      have hline := goes_readLine hl hne []
      have hshorter := Nat.lt_succ_of_le (hline.length_le.trans hlength)
      obtain ⟨stop, hstop, hothers⟩ := goes_readLines ho (hline.endsLine nofun trivial) hshorter
      exact ⟨stop, hstop, hfirst.trans (hline.trans hothers)⟩
  obtain ⟨pieces, hpath, hrest, _, rfl⟩ := hgoes
  rw [hstop] at hpath hrest
  exact ⟨pieces, hpath, by simpa using hrest.symm, rfl⟩

end PugLint
