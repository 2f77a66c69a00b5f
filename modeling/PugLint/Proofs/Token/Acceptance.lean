import PugLint.Proofs.Token.Attribute

/-!
# Every path is read

The reader follows the moves of its machine, and it follows all of them: where a path leads
from the start of a text to its end, the text is read, and the tokens are those of the path.
A state accepts tokens in front of a text if the reader, standing there with turns enough,
reads the text to its end and gives them; each move hands that on from the state it leads to,
and a path from its end to its start.

* `Lexer.Accepts`: the reader reads on from a state;
* `Lexer.Move.accepts`, `Lexer.Path.accepts`: one move, and a path;
* `tokenize_of_path`: the text of a path has the tokens of the path.
-/

namespace PugLint

namespace Lexer

/-! ### Acceptance -/

/-- The lines behind the end of a line are read. -/
def ReadsOn (levels : List Nat) (opensBlock : Bool) (cursor : Cursor) (tokens : List Token) :
    Prop :=
  ∀ fuel, cursor.rest.length < fuel → readLines fuel levels opensBlock cursor = .ok tokens

/-- A line is read, and so are those behind it. -/
def Leads (levels : List Nat) (read : Except LexError LineTokens) (tokens : List Token) : Prop :=
  ∃ line others, read = .ok line ∧ tokens = line.tokens ++ others ∧
    ReadsOn levels line.opensBlock line.cursor others

/-- The head of an element is read, and so is what stands behind it. -/
def AcceptsHead (levels : List Nat) (started : Bool) (cursor : Cursor) (tokens : List Token) :
    Prop :=
  ∀ fuel, cursor.rest.length < fuel → Leads levels (readElement fuel started cursor) tokens

/-- The lines of a block of raw text are read, and so are those behind it. -/
def AcceptsRaw (levels : List Nat) (base : Option Nat) (cursor : Cursor) (tokens : List Token) :
    Prop :=
  ∀ fuel, cursor.rest.length < fuel → ∃ raw stop others,
    readRawLines (levels.headD 0) fuel base cursor = (raw, stop) ∧
      stop.rest.length ≤ cursor.rest.length ∧ tokens = raw ++ others ∧
      ReadsOn levels false stop others

/-- The reader reads a text to its end from a state on, and gives the tokens. -/
def Accepts (s : State) (cursor : Cursor) (tokens : List Token) : Prop :=
  match s.stage with
  | .start => cursor.place = .first → read cursor.rest = .ok tokens
  | .content => Leads s.levels (readLine cursor) tokens
  | .head started => AcceptsHead s.levels started cursor tokens
  | .list => ∀ start fuel, cursor.rest.length < fuel → ∃ listed stop others,
      readAttributes start fuel cursor = .ok (listed, stop) ∧ tokens = listed ++ others ∧
        AcceptsHead s.levels true stop others
  | .lineEnd opensBlock => ReadsOn s.levels opensBlock cursor tokens
  | .rawLine base => ∃ others, tokens = (readText cursor).tokens ++ others ∧
      AcceptsRaw s.levels (some base) (readText cursor).cursor others
  | .rawEnd base => AcceptsRaw s.levels (some base) cursor tokens
  | .done => cursor.rest = [] ∧ tokens = []

/-- A line with tokens in front leads to the same lines behind it. -/
theorem Leads.map_prepending {levels : List Nat} {read : Except LexError LineTokens}
    {tokens : List Token} (h : Leads levels read tokens) (front : List Token) :
    Leads levels (read.map (.prepending front)) (front ++ tokens) := by
  obtain ⟨line, others, rfl, rfl, hothers⟩ := h
  exact ⟨line.prepending front, others, rfl, (List.append_assoc ..).symm, hothers⟩

variable {levels : List Nat} {started : Bool} {rest : List Char} {place : Position}
  {tokens : List Token}

theorem IsLine.readText_eq {line : List Char} (h : IsLine line rest) (place : Position) :
    readText ⟨place, line ++ rest⟩ =
      lastToken ⟨place, line ++ rest⟩ (.text (String.ofList line)) line rest false :=
  Lexer.readText_eq h

theorem IsLine.readCode_eq {line : List Char} (h : IsLine line rest) (place : Position)
    (size : Nat) (buffered : Bool) :
    readCode ⟨place, line ++ rest⟩ size buffered =
      lastToken ⟨place, line ++ rest⟩
        (.code (String.ofList (Text.trimLeft (line.drop size))) buffered) line rest
        (!buffered && (Text.trim (Text.trimLeft (line.drop size))).isEmpty) := by
  have hsplit : splitLine (line ++ rest) = (line, rest) := h
  simp only [readCode, hsplit]

/-! ### Heads of elements -/

/-- A part of a head is read, and so is what stands behind it. -/
theorem AcceptsHead.part {started' : Bool} {taken : List Char} (front : List Token)
    {place' : Position} (hne : taken ≠ []) (h : AcceptsHead levels started' ⟨place', rest⟩ tokens)
    (hread : ∀ fuel, readElement (fuel + 1) started ⟨place, taken ++ rest⟩ =
      (readElement fuel started' ⟨place', rest⟩).map (.prepending front)) :
    AcceptsHead levels started ⟨place, taken ++ rest⟩ (front ++ tokens) := by
  intro fuel hfuel
  have hpos := List.length_pos_iff.2 hne
  rw [List.length_append] at hfuel
  rcases fuel with _ | fuel
  · exact absurd hfuel (Nat.not_lt_zero _)
  · rw [hread]
    exact (h fuel (by dsimp only; omega)).map_prepending front

/-- The last part of a head leads to the end of its line. -/
theorem AcceptsHead.last {cursor : Cursor} (line : LineTokens)
    (h : ReadsOn levels line.opensBlock line.cursor tokens)
    (hread : ∀ fuel, readElement (fuel + 1) started cursor = .ok line) :
    AcceptsHead levels started cursor (line.tokens ++ tokens) := by
  intro fuel hfuel
  rcases fuel with _ | fuel
  · exact absurd hfuel (Nat.not_lt_zero _)
  · exact ⟨line, tokens, hread fuel, rfl, h⟩

theorem acceptsHead_ended (h : isLineEnd rest = true)
    (ht : ReadsOn levels false ⟨place, rest⟩ tokens) :
    AcceptsHead levels started ⟨place, rest⟩ tokens := by
  refine .last ⟨[], ⟨place, rest⟩, false⟩ ht fun fuel => ?_
  simp only [readElement, h, if_pos]

theorem acceptsHead_tag {c : Char} {name : List Char} (hc : (c.isAlphanum || c == '_') = true)
    (h : scanTag (c :: name ++ rest) = (c :: name, rest))
    (ht : AcceptsHead levels true ⟨place.after (c :: name), rest⟩ tokens) :
    AcceptsHead levels false ⟨place, c :: name ++ rest⟩
      (⟨.tag (String.ofList (c :: name)), place, place.after (c :: name)⟩ :: tokens) := by
  refine .part [_] (List.cons_ne_nil _ _) ht fun fuel => ?_
  rw [List.cons_append] at h
  have hend := isLineEnd_cons_of_isAlphanum hc (name ++ rest)
  simp only [readElement, List.cons_append, hend, hc, h, Bool.not_false, Bool.true_and]
  rfl

theorem acceptsHead_literal {c : Char} {kind : String → TokenKind} {name : List Char}
    (hc : LiteralMarker c kind) (hne : name ≠ []) (hname : ∀ c ∈ name, isLiteralChar c = true)
    (hrest : ∀ c ∈ rest.head?, isLiteralChar c = false)
    (ht : AcceptsHead levels true ⟨place.after (c :: name), rest⟩ tokens) :
    AcceptsHead levels started ⟨place, c :: name ++ rest⟩
      (⟨kind (String.ofList name), place, place.after (c :: name)⟩ :: tokens) := by
  refine .part [_] (List.cons_ne_nil _ _) ht fun fuel => ?_
  obtain ⟨htake, hdrop⟩ := takeWhile_append_stop hname hrest
  have hhead : (name ++ rest).head?.any isLiteralChar = true := by
    rcases name with _ | ⟨d, name⟩
    · exact absurd rfl hne
    · exact hname d List.mem_cons_self
  have hplain : (c.isAlphanum || c == '_') = false ∧ (c == '.' || c == '#') = true ∧
      c ≠ '\n' ∧ c ≠ '\r' := by
    cases hc <;> decide
  have hkind : (if c == '.' then TokenKind.classLiteral else TokenKind.idLiteral) = kind := by
    cases hc <;> rfl
  have hend := isLineEnd_cons_of_ne hplain.2.2.1 hplain.2.2.2 (name ++ rest)
  simp only [readElement, List.cons_append, hend, hhead, htake, hdrop, hplain, hkind,
    Bool.and_false, Bool.and_true]
  rfl

theorem acceptsHead_dot {blanks : List Char} (hblanks : ∀ c ∈ blanks, isInlineBlank c = true)
    (hrest : isLineEnd rest = true)
    (ht : ReadsOn levels true ⟨place.after ('.' :: blanks), rest⟩ tokens) :
    AcceptsHead levels started ⟨place, '.' :: (blanks ++ rest)⟩
      (⟨.dot, place, place.after ['.']⟩ :: tokens) := by
  have hblank : ∀ c ∈ rest.head?, isInlineBlank c = false := by
    rcases eq_of_isLineEnd hrest with rfl | ⟨ds, rfl⟩ | ⟨ds, rfl⟩ <;> simp [isInlineBlank]
  obtain ⟨htake, hdrop⟩ := takeWhile_append_stop hblanks hblank
  have hhead : (blanks ++ rest).head?.any isLiteralChar = false := by
    rcases blanks with _ | ⟨d, blanks⟩
    · rcases eq_of_isLineEnd hrest with rfl | ⟨ds, rfl⟩ | ⟨ds, rfl⟩ <;> rfl
    · have hd := hblanks d List.mem_cons_self
      simp only [isInlineBlank, Bool.or_eq_true, beq_iff_eq] at hd
      rcases hd with rfl | rfl <;> rfl
  have hend := isLineEnd_cons_of_ne (show '.' ≠ '\n' by decide) (by decide) (blanks ++ rest)
  refine .last ⟨[⟨.dot, place, place.after ['.']⟩],
    ⟨place.after ('.' :: blanks), rest⟩, true⟩ ht fun fuel => ?_
  simp only [readElement, hend, hhead, htake, hdrop, hrest]
  cases started <;> rfl

theorem acceptsHead_colon {blanks : List Char} (hne : blanks ≠ [])
    (hblanks : ∀ c ∈ blanks, isInlineBlank c = true)
    (hrest : ∀ c ∈ rest.head?, isInlineBlank c = false)
    (ht : AcceptsHead levels false ⟨place.after (':' :: blanks), rest⟩ tokens) :
    AcceptsHead levels true ⟨place, ':' :: blanks ++ rest⟩
      (⟨.colon, place, place.after [':']⟩ :: tokens) := by
  refine .part [_] (List.cons_ne_nil _ _) ht fun fuel => ?_
  obtain ⟨htake, hdrop⟩ := takeWhile_append_stop hblanks hrest
  have hhead : (blanks ++ rest).head?.any isInlineBlank = true := by
    rcases blanks with _ | ⟨d, blanks⟩
    · exact absurd rfl hne
    · exact hblanks d List.mem_cons_self
  have hend := isLineEnd_cons_of_ne (show ':' ≠ '\n' by decide) (by decide) (blanks ++ rest)
  simp only [readElement, List.cons_append, hend, hhead, htake, hdrop]
  rfl

theorem acceptsHead_slash (h : isLineEnd rest = true)
    (ht : AcceptsHead levels true ⟨place.after ['/'], rest⟩ tokens) :
    AcceptsHead levels true ⟨place, ['/'] ++ rest⟩
      (⟨.slash, place, place.after ['/']⟩ :: tokens) := by
  refine .part [_] (List.cons_ne_nil _ _) ht fun fuel => ?_
  have hend := isLineEnd_cons_of_ne (show '/' ≠ '\n' by decide) (by decide) rest
  simp only [readElement, List.cons_append, List.nil_append, hend, h]
  rfl

/-- A list of attributes, and the head behind it. -/
theorem acceptsHead_opens (ht : Accepts ⟨.list, levels⟩ ⟨place.after ['('], rest⟩ tokens) :
    AcceptsHead levels true ⟨place, '(' :: rest⟩
      (⟨.startAttributes, place, place.after ['(']⟩ :: tokens) := by
  intro fuel hfuel
  rcases fuel with _ | fuel
  · exact absurd hfuel (Nat.not_lt_zero _)
  · obtain ⟨listed, stop, others, hread, rfl, hstop⟩ :=
      ht place (rest.length + 1) (Nat.lt_succ_self _)
    have hle : stop.rest.length ≤ rest.length := (goes_readAttributes hread levels).length_le
    have hlength : rest.length + 1 < fuel + 1 := hfuel
    obtain ⟨line, behind, hline, rfl, hon⟩ := hstop fuel (by omega)
    have hend := isLineEnd_cons_of_ne (show '(' ≠ '\n' by decide) (by decide) rest
    refine ⟨line.prepending (⟨.startAttributes, place, place.after ['(']⟩ :: listed), behind, ?_,
      congrArg (List.cons _) (List.append_assoc ..).symm, hon⟩
    simp only [readElement, hend]
    exact bind_eq_ok.2 ⟨_, hread, bind_eq_ok.2 ⟨line, hline, rfl⟩⟩

theorem acceptsHead_spread {group : List Char} (h : IsGroup group)
    (ht : AcceptsHead levels true ⟨place.after ("&attributes(".toList ++ group), rest⟩ tokens) :
    AcceptsHead levels true ⟨place, "&attributes(".toList ++ group ++ rest⟩
      (⟨.andAttributes (String.ofList group.dropLast), place,
        place.after ("&attributes(".toList ++ group)⟩ :: tokens) := by
  refine .part [_] (by simp) ht fun fuel => ?_
  rw [List.append_assoc]
  have hgroup := h (place.after "&attributes".toList) (place.after "&attributes(".toList) rest
  have hend := isLineEnd_cons_of_ne (show '&' ≠ '\n' by decide) (by decide)
    ("attributes(".toList ++ (group ++ rest))
  change readElement (fuel + 1) true ⟨place, '&' :: ("attributes(".toList ++ (group ++ rest))⟩ = _
  have hmarked : "&attributes(".toList.isPrefixOf
      ('&' :: ("attributes(".toList ++ (group ++ rest))) = true := rfl
  have hdrop : ("attributes(".toList ++ (group ++ rest)).drop ("&attributes(".toList.length - 1) =
      group ++ rest := rfl
  simp only [readElement, hend, hmarked, hdrop, hgroup]
  rfl

theorem acceptsHead_code {line : List Char} {kind : TokenKind} (h : ShownCode line kind)
    (hline : IsLine line rest) (ht : ReadsOn levels false ⟨place.after line, rest⟩ tokens) :
    AcceptsHead levels true ⟨place, line ++ rest⟩
      (⟨kind, place, place.after line⟩ :: tokens) := by
  refine .last (lastToken ⟨place, line ++ rest⟩ kind line rest false) ht
    fun fuel => ?_
  cases h with
  | @escaped cs =>
    have hend := isLineEnd_cons_of_ne (show '=' ≠ '\n' by decide) (by decide) (cs ++ rest)
    have hcode := hline.readCode_eq place 1 true
    rw [List.cons_append] at hcode ⊢
    simp only [readElement, hend]
    exact congrArg Except.ok hcode
  | @raw cs =>
    have hend := isLineEnd_cons_of_ne (show '!' ≠ '\n' by decide) (by decide) ('=' :: (cs ++ rest))
    have hcode := hline.readCode_eq place 2 true
    rw [List.cons_append, List.cons_append] at hcode ⊢
    simp only [readElement, hend]
    exact congrArg Except.ok hcode

theorem readElement_blank {c : Char} {line : List Char} (hc : isInlineBlank c = true)
    (hline : IsLine line rest) (place : Position) (fuel : Nat) :
    readElement (fuel + 1) true ⟨place, c :: (line ++ rest)⟩ =
      if (Text.trim line).isEmpty then .ok ⟨[], ⟨place.after (c :: line), rest⟩, false⟩
      else .ok (readText ⟨place.after [c], line ++ rest⟩) := by
  have hend := isLineEnd_cons_of_isInlineBlank hc (line ++ rest)
  have hsplit : splitLine (line ++ rest) = (line, rest) := hline
  simp only [isInlineBlank, Bool.or_eq_true, beq_iff_eq] at hc
  rcases hc with rfl | rfl <;> simp only [readElement, hend, hsplit] <;> rfl

theorem acceptsHead_trailing {c : Char} {line : List Char} (hc : isInlineBlank c = true)
    (hline : IsLine line rest) (h : (Text.trim line).isEmpty = true)
    (ht : ReadsOn levels false ⟨place.after (c :: line), rest⟩ tokens) :
    AcceptsHead levels true ⟨place, c :: (line ++ rest)⟩ tokens := by
  refine .last ⟨[], ⟨place.after (c :: line), rest⟩, false⟩ ht fun fuel => ?_
  rw [readElement_blank hc hline, if_pos h]

theorem acceptsHead_text {c : Char} {line : List Char} (hc : isInlineBlank c = true)
    (hline : IsLine line rest) (h : (Text.trim line).isEmpty = false)
    (ht : ReadsOn levels false ⟨place.after (c :: line), rest⟩ tokens) :
    AcceptsHead levels true ⟨place, c :: (line ++ rest)⟩
      (⟨.text (String.ofList line), place.after [c], (place.after [c]).after line⟩ :: tokens) := by
  refine .last (lastToken ⟨place.after [c], line ++ rest⟩
    (.text (String.ofList line)) line rest false) ht fun fuel => ?_
  rw [readElement_blank hc hline, h, if_neg Bool.false_ne_true, hline.readText_eq]

theorem acceptsHead_interpolation {cs : List Char} (h : cs.head?.any isLiteralChar = false)
    (hline : IsLine ('#' :: cs) rest)
    (ht : ReadsOn levels false ⟨place.after ('#' :: cs), rest⟩ tokens) :
    AcceptsHead levels false ⟨place, '#' :: cs ++ rest⟩
      (⟨.text (String.ofList ('#' :: cs)), place, place.after ('#' :: cs)⟩ :: tokens) := by
  have hhead : (cs ++ rest).head?.any isLiteralChar = false := by
    rcases cs with _ | ⟨d, cs⟩
    · rcases eq_of_isLineEnd hline.isLineEnd with rfl | ⟨ds, rfl⟩ | ⟨ds, rfl⟩ <;> rfl
    · exact h
  have hend := isLineEnd_cons_of_ne (show '#' ≠ '\n' by decide) (by decide) (cs ++ rest)
  refine .last (lastToken ⟨place, '#' :: cs ++ rest⟩
    (.text (String.ofList ('#' :: cs))) ('#' :: cs) rest false) ht fun fuel => ?_
  have htext := hline.readText_eq place
  rw [List.cons_append] at htext ⊢
  simp only [readElement, hend, hhead]
  exact congrArg Except.ok htext

/-! ### Lists of attributes -/

/-- What stands between attributes is passed over. -/
theorem readAttributes_append {separators : List Char}
    (hseparators : ∀ c ∈ separators, isSeparator c = true)
    (hrest : ∀ c ∈ rest.head?, isSeparator c = false) (start place : Position) (fuel : Nat) :
    readAttributes start (fuel + 1) ⟨place, separators ++ rest⟩ =
      readAttributes start (fuel + 1) ⟨place.after separators, rest⟩ := by
  obtain ⟨htake, hdrop⟩ := takeWhile_append_stop hseparators hrest
  obtain ⟨htake', hdrop'⟩ :=
    takeWhile_append_stop (List.forall_mem_nil (isSeparator · = true)) hrest
  rw [List.nil_append] at htake' hdrop'
  simp only [readAttributes, htake, hdrop, htake', hdrop']
  rfl

theorem accepts_closes {separators : List Char}
    (hseparators : ∀ c ∈ separators, isSeparator c = true)
    (ht : AcceptsHead levels true ⟨(place.after separators).after [')'], rest⟩ tokens) :
    Accepts ⟨.list, levels⟩ ⟨place, separators ++ ')' :: rest⟩
      (⟨.endAttributes, place.after separators, (place.after separators).after [')']⟩ ::
        tokens) := by
  intro start fuel hfuel
  rcases fuel with _ | fuel
  · exact absurd hfuel (Nat.not_lt_zero _)
  · rw [readAttributes_append hseparators (by rintro c ⟨⟩; rfl)]
    exact ⟨_, _, tokens, rfl, rfl, ht⟩

/-- An attribute of a list, and the list behind it. -/
theorem accepts_listed {separators written : List Char} {kind : TokenKind}
    (hseparators : ∀ c ∈ separators, isSeparator c = true)
    (hwritten : ∀ c ∈ (written ++ rest).head?, isSeparator c = false ∧ c ≠ ')')
    (h : ReadsAttribute kind written rest)
    (ht : Accepts ⟨.list, levels⟩ ⟨(place.after separators).after written, rest⟩ tokens) :
    Accepts ⟨.list, levels⟩ ⟨place, separators ++ (written ++ rest)⟩
      (⟨kind, place.after separators, (place.after separators).after written⟩ :: tokens) := by
  intro start fuel hfuel
  have hpos := List.length_pos_iff.2 h.attributeAt.ne_nil
  rw [List.length_append, List.length_append] at hfuel
  rcases fuel with _ | fuel
  · exact absurd hfuel (Nat.not_lt_zero _)
  · rw [readAttributes_append hseparators fun c hc => (hwritten c hc).1]
    have hread := h (place.after separators)
    obtain ⟨listed, stop, others, hattributes, rfl, hstop⟩ := ht start fuel (by dsimp only; omega)
    refine ⟨⟨kind, place.after separators, (place.after separators).after written⟩ :: listed,
      stop, others, ?_, rfl, hstop⟩
    obtain ⟨htake, hdrop⟩ := takeWhile_append_stop (List.forall_mem_nil (isSeparator · = true))
      fun c hc => (hwritten c hc).1
    rw [List.nil_append] at htake hdrop
    rw [readAttributes]
    dsimp only
    rw [htake, hdrop]
    dsimp only [Cursor.advance]
    split
    · rename_i hnil
      exact absurd hnil (List.append_ne_nil_of_left_ne_nil h.attributeAt.ne_nil _)
    · rename_i hclose
      exact absurd rfl (hwritten ')' (by rw [hclose]; rfl)).2
    · exact bind_eq_ok.2 ⟨_, hread, bind_eq_ok.2 ⟨_, hattributes, rfl⟩⟩

/-! ### Lines -/

/-- A line without a marker is a keyword with what belongs to it, or starts an element. -/
theorem readLine_eq {text : List Char} (hne : text ≠ [])
    (hhead : ∀ c ∈ text.head?, c ∉ ['|', '<', '-', '=', '+']) (hcomment : ¬['/', '/'] <+: text)
    (hcode : ¬['!', '='] <+: text) (place : Position) :
    readLine ⟨place, text⟩ =
      match keywordLine? (splitLine text).1 with
      | some kind =>
        .ok (lastToken ⟨place, text⟩ kind (splitLine text).1 (splitLine text).2 false)
      | none => readElement (text.length + 1) false ⟨place, text⟩ := by
  unfold readLine
  dsimp only
  split
  · exact absurd rfl hne
  all_goals first
    | exact absurd (hhead _ rfl) (by decide)
    | exact absurd ⟨_, rfl⟩ hcomment
    | exact absurd ⟨_, rfl⟩ hcode
    | rfl

/-- A bar without a blank behind it. -/
theorem readLine_bar {cs : List Char} (h : cs.head? ≠ some ' ') (place : Position) :
    readLine ⟨place, '|' :: cs⟩ = .ok (readText ⟨place.after ['|'], cs⟩) := by
  unfold readLine
  dsimp only
  split
  case h_2 hcs =>
    cases hcs
    exact absurd rfl h
  case h_3 hcs =>
    cases hcs
    rfl
  case h_11 hbar _ _ _ _ _ _ _ => exact absurd rfl (hbar cs)
  all_goals
    rename_i hcs
    cases hcs

theorem accepts_bar {bar line : List Char}
    (hbar : bar = ['|', ' '] ∨ bar = ['|'] ∧ line.head? ≠ some ' ') (hline : IsLine line rest)
    (ht : ReadsOn levels false ⟨(place.after bar).after line, rest⟩ tokens) :
    Accepts ⟨.content, levels⟩ ⟨place, bar ++ (line ++ rest)⟩
      (⟨.text (String.ofList line), place.after bar, (place.after bar).after line⟩ :: tokens) := by
  refine ⟨lastToken ⟨place.after bar, line ++ rest⟩ (.text (String.ofList line)) line rest false,
    tokens, ?_, rfl, ht⟩
  rw [← hline.readText_eq]
  rcases hbar with rfl | ⟨rfl, hblank⟩
  · rfl
  · refine readLine_bar ?_ place
    rcases line with _ | ⟨c, line⟩
    · rcases eq_of_isLineEnd hline.isLineEnd with rfl | ⟨ds, rfl⟩ | ⟨ds, rfl⟩ <;> nofun
    · exact hblank

/-- A comment that is shown. -/
theorem readLine_comment {cs line rest : List Char} (h : cs.head? ≠ some '-')
    (hline : splitLine ('/' :: '/' :: cs) = (line, rest)) (place : Position) :
    readLine ⟨place, '/' :: '/' :: cs⟩ = .ok (lastToken ⟨place, '/' :: '/' :: cs⟩
      (.comment (String.ofList (line.drop 2)) true) line rest true) := by
  unfold readLine
  dsimp only
  rw [hline]
  split
  case h_5 hcs =>
    cases hcs
    exact absurd rfl h
  case h_6 => rfl
  case h_11 hcomment _ _ _ _ => exact absurd rfl (hcomment cs)
  all_goals
    rename_i hcs
    cases hcs

/-- A line that starts with a word has no marker. -/
theorem unmarked_of_isAlphanum {c : Char} (hc : (c.isAlphanum || c == '_') = true)
    (cs : List Char) : (∀ d ∈ (c :: cs).head?, d ∉ ['|', '<', '-', '=', '+']) ∧
      ¬['/', '/'] <+: c :: cs ∧ ¬['!', '='] <+: c :: cs := by
  refine ⟨?_, ?_, ?_⟩
  · rintro d ⟨⟩ hd
    simp only [List.mem_cons, List.not_mem_nil, or_false] at hd
    rcases hd with rfl | rfl | rfl | rfl | rfl <;> exact absurd hc (by decide)
  · rintro ⟨ds, hds⟩
    obtain rfl := (List.cons.inj hds).1
    exact absurd hc (by decide)
  · rintro ⟨ds, hds⟩
    obtain rfl := (List.cons.inj hds).1
    exact absurd hc (by decide)

/-- A keyword starts with a small letter. -/
theorem exists_cons_of_keywordLine? {line : List Char} {kind : TokenKind}
    (h : keywordLine? line = some kind) : ∃ c cs, line = c :: cs ∧ c.isLower = true := by
  have hword : line.takeWhile Char.isLower ≠ [] := by
    intro hnil
    rw [keywordLine?, hnil] at h
    have hnone : Keyword.ofWord? (String.ofList []) = none := by decide
    dsimp only at h
    rw [hnone] at h
    split at h <;> cases h
  rcases line with _ | ⟨c, cs⟩
  · exact absurd rfl hword
  · refine ⟨c, cs, rfl, ?_⟩
    by_contra hc
    exact hword (List.takeWhile_cons_of_neg hc)

/-- A line that is one token. -/
theorem accepts_whole {line : List Char} {kind : TokenKind} {opensBlock : Bool}
    (h : WholeLine line kind opensBlock) (hline : IsLine line rest)
    (ht : ReadsOn levels opensBlock ⟨place.after line, rest⟩ tokens) :
    Accepts ⟨.content, levels⟩ ⟨place, line ++ rest⟩
      (⟨kind, place, place.after line⟩ :: tokens) := by
  refine ⟨lastToken ⟨place, line ++ rest⟩ kind line rest opensBlock, tokens, ?_, rfl, ht⟩
  have hsplit : splitLine (line ++ rest) = (line, rest) := hline
  -- Whatever the marker is, the line ends where the text is split.
  cases h with
  | @html cs =>
    have hread : readLine ⟨place, '<' :: cs ++ rest⟩ = .ok (lastToken ⟨place, '<' :: cs ++ rest⟩
        (.html (String.ofList (splitLine ('<' :: cs ++ rest)).1)) (splitLine ('<' :: cs ++ rest)).1
        (splitLine ('<' :: cs ++ rest)).2 false) := rfl
    rw [hread, hsplit]
  | @hiddenComment cs =>
    have hread : readLine ⟨place, '/' :: '/' :: '-' :: cs ++ rest⟩ =
        .ok (lastToken ⟨place, '/' :: '/' :: '-' :: cs ++ rest⟩
          (.comment (String.ofList ((splitLine ('/' :: '/' :: '-' :: cs ++ rest)).1.drop 3)) false)
          (splitLine ('/' :: '/' :: '-' :: cs ++ rest)).1
          (splitLine ('/' :: '/' :: '-' :: cs ++ rest)).2 true) := rfl
    rw [hread, hsplit]
    rfl
  | @comment cs h =>
    have hhead : (cs ++ rest).head? ≠ some '-' := by
      rcases cs with _ | ⟨c, cs⟩
      · rcases eq_of_isLineEnd hline.isLineEnd with rfl | ⟨ds, rfl⟩ | ⟨ds, rfl⟩ <;> nofun
      · exact h
    exact readLine_comment hhead hsplit place
  | code => exact congrArg Except.ok (hline.readCode_eq place 1 false)
  | shownCode h =>
    cases h with
    | escaped => exact congrArg Except.ok (hline.readCode_eq place 1 true)
    | raw => exact congrArg Except.ok (hline.readCode_eq place 2 true)
  | keyword h =>
    obtain ⟨c, cs, rfl, hc⟩ := exists_cons_of_keywordLine? h
    have hword : (c.isAlphanum || c == '_') = true := by
      rw [isAlphanum_of_isLower hc, Bool.true_or]
    obtain ⟨hhead, hcomment, hcode⟩ := unmarked_of_isAlphanum hword (cs ++ rest)
    have hread := readLine_eq (List.cons_ne_nil c (cs ++ rest)) hhead hcomment hcode place
    rw [← List.cons_append, hsplit, h] at hread
    exact hread

theorem accepts_call {name : List Char} (hne : name ≠ [])
    (hname : ∀ c ∈ name, isLiteralChar c = true)
    (hrest : ∀ c ∈ rest.head?, isLiteralChar c = false)
    (ht : AcceptsHead levels true ⟨place.after ('+' :: name), rest⟩ tokens) :
    Accepts ⟨.content, levels⟩ ⟨place, '+' :: name ++ rest⟩
      (⟨.call (String.ofList name), place, place.after ('+' :: name)⟩ :: tokens) := by
  obtain ⟨htake, hdrop⟩ := takeWhile_append_stop hname hrest
  have hread : readLine ⟨place, '+' :: name ++ rest⟩ =
      (readElement (rest.length + 1) true ⟨place.after ('+' :: name), rest⟩).map
        (.prepending [⟨.call (String.ofList name), place, place.after ('+' :: name)⟩]) := by
    have hdefault (cs : List Char) : readLine ⟨place, '+' :: cs⟩ =
        if (cs.takeWhile isLiteralChar).isEmpty then .error (unexpected ⟨place, '+' :: cs⟩)
        else
          (readElement ((cs.dropWhile isLiteralChar).length + 1) true
            ⟨place.after ('+' :: cs.takeWhile isLiteralChar), cs.dropWhile isLiteralChar⟩).map
            (.prepending [⟨.call (String.ofList (cs.takeWhile isLiteralChar)), place,
              place.after ('+' :: cs.takeWhile isLiteralChar)⟩]) := rfl
    rw [List.cons_append, hdefault, htake, hdrop, if_neg (by simpa using hne)]
  change Leads levels (readLine ⟨place, '+' :: name ++ rest⟩) _
  rw [hread]
  exact (ht _ (Nat.lt_succ_self _)).map_prepending [_]

theorem accepts_element {text : List Char} (h : StartsElement text)
    (ht : AcceptsHead levels false ⟨place, text⟩ tokens) :
    Accepts ⟨.content, levels⟩ ⟨place, text⟩ tokens := by
  have hread := readLine_eq h.ne_nil h.head h.comment h.code place
  rw [h.word] at hread
  change Leads levels (readLine ⟨place, text⟩) _
  rw [hread]
  exact ht _ (Nat.lt_succ_self _)

/-! ### Blocks of lines -/

/-- The indentation of a line is read. -/
theorem Indents.readIndentation {levels levels' : List Nat} {indentation : List Char}
    {kinds : List TokenKind} (h : Indents levels indentation.length kinds levels') (line : Nat) :
    readIndentation levels line indentation = .ok (kinds.map fun kind =>
      ⟨kind, ⟨line, 1⟩, (⟨line, 1⟩ : Position).after indentation⟩, levels') := by
  unfold Lexer.readIndentation
  dsimp only
  cases h with
  | deeper h =>
    rw [if_pos h]
    rfl
  | same h =>
    rw [if_neg (by omega), if_neg (by omega)]
    rfl
  | @outer closed _ _ hne hwidth h =>
    have hhead : indentation.length < (closed ++ levels').headD 0 := by
      cases closed with
      | nil => exact absurd rfl hne
      | cons level closed => exact h level List.mem_cons_self
    rw [if_neg (by omega), if_pos hhead, closeLevels_append h hwidth]
    dsimp only
    rw [if_pos (by simp [hwidth]), List.map_replicate]
    rfl

theorem readsOn_next {levels' : List Nat} {lines indentation content : List Char}
    {kinds : List TokenKind} (h : Ahead lines indentation content) (hne : lines ≠ [])
    (hcontent : content ≠ []) (hindents : Indents levels indentation.length kinds levels')
    (ht : Accepts ⟨.content, levels'⟩ ⟨(place.after lines).after indentation, content⟩ tokens) :
    ReadsOn levels false ⟨place, lines ++ (indentation ++ content)⟩
      (kinds.map (fun kind =>
        ⟨kind, place.after lines, (place.after lines).after indentation⟩) ++ tokens) := by
  intro fuel hfuel
  rcases fuel with _ | fuel
  · exact absurd hfuel (Nat.not_lt_zero _)
  · obtain ⟨line, hnext, hplace⟩ := nextLine_of_ahead h place
    rw [hplace hne] at ht ⊢
    obtain ⟨body, others, hbody, rfl, hon⟩ := ht
    have hlength : body.cursor.rest.length ≤ content.length :=
      (goes_readLine hbody hcontent levels').length_le
    have hpos := List.length_pos_iff.2 hne
    rw [List.length_append, List.length_append] at hfuel
    have hothers := hon fuel (by omega)
    rw [readLines]
    dsimp only
    rw [if_neg Bool.false_ne_true]
    dsimp only
    rw [hnext]
    dsimp only
    rw [if_neg (by simp [hne]), if_neg (by simpa using hcontent)]
    refine bind_eq_ok.2 ⟨_, hindents.readIndentation line,
      bind_eq_ok.2 ⟨body, hbody, bind_eq_ok.2 ⟨others, hothers, ?_⟩⟩⟩
    exact congrArg Except.ok (List.append_assoc ..)

theorem readsOn_finish {lines indentation : List Char} (h : Ahead lines indentation [])
    (hne : lines = [] → indentation = []) :
    ReadsOn levels false ⟨place, lines ++ indentation⟩
      (finish levels ⟨place.after (lines ++ indentation), []⟩) := by
  intro fuel hfuel
  rcases fuel with _ | fuel
  · exact absurd hfuel (Nat.not_lt_zero _)
  · obtain ⟨line, hnext, hplace⟩ := nextLine_of_ahead h place
    rw [List.append_nil] at hnext
    rw [readLines]
    dsimp only
    rw [if_neg Bool.false_ne_true]
    dsimp only
    rw [hnext]
    dsimp only
    split
    · rename_i hempty
      rw [List.isEmpty_iff] at hempty
      rw [hempty]
      rfl
    · rename_i hempty
      have hlines : lines ≠ [] := by
        rintro rfl
        rw [hne rfl] at hempty
        exact hempty rfl
      rw [Position.after_append, hplace hlines]
      rfl

/-- A block of raw text in front of the lines that are read. -/
theorem readsOn_raw {cursor : Cursor} (h : AcceptsRaw levels none cursor tokens) :
    ReadsOn levels true cursor tokens := by
  intro fuel hfuel
  rcases fuel with _ | fuel
  · exact absurd hfuel (Nat.not_lt_zero _)
  · obtain ⟨raw, stop, others, hraw, hlength, rfl, hon⟩ :=
      h (cursor.rest.length + 1) (Nat.lt_succ_self _)
    have htokens := hon (fuel + 1) (by omega)
    rw [readLines] at htokens ⊢
    dsimp only at htokens ⊢
    rw [if_neg Bool.false_ne_true] at htokens
    rw [if_pos rfl, hraw]
    dsimp only at htokens ⊢
    -- Behind the block the two go the same way.
    split at htokens
    · rename_i hempty
      cases htokens
      rw [if_pos hempty]
      rfl
    · rename_i hempty
      rw [if_neg hempty]
      split at htokens
      · rename_i hcontent
        cases htokens
        rw [if_pos hcontent]
        rfl
      · rename_i hcontent
        rw [if_neg hcontent]
        obtain ⟨depth, hdepth, htokens⟩ := bind_eq_ok.1 htokens
        obtain ⟨body, hbody, htokens⟩ := bind_eq_ok.1 htokens
        obtain ⟨others, hothers, htokens⟩ := bind_eq_ok.1 htokens
        cases htokens
        refine bind_eq_ok.2 ⟨_, hdepth, bind_eq_ok.2 ⟨_, hbody, bind_eq_ok.2 ⟨_, hothers, ?_⟩⟩⟩
        simp only [List.nil_append, List.append_assoc]
        rfl

/-- The token behind the last line of a block of raw text, if there is a line. -/
def rawEnding (base : Option Nat) (cursor : Cursor) : List Token :=
  base.toList.map fun _ => cursor.token .endRawText []

/-- A block of raw text ends in front of a line that is not deeper. -/
theorem acceptsRaw_shallow {base : Option Nat} {lines indentation content : List Char}
    (h : Ahead lines indentation content)
    (hshallow : content = [] ∨ indentation.length ≤ levels.headD 0)
    (ht : ReadsOn levels false ⟨place, lines ++ (indentation ++ content)⟩ tokens) :
    AcceptsRaw levels base ⟨place, lines ++ (indentation ++ content)⟩
      (rawEnding base ⟨place, lines ++ (indentation ++ content)⟩ ++ tokens) := by
  intro fuel hfuel
  rcases fuel with _ | fuel
  · exact absurd hfuel (Nat.not_lt_zero _)
  · obtain ⟨line, hnext, -⟩ := nextLine_of_ahead h place
    have hends : (content.isEmpty || decide (indentation.length ≤ levels.headD 0)) = true := by
      rw [Bool.or_eq_true, List.isEmpty_iff, decide_eq_true_iff]
      exact hshallow
    refine ⟨rawEnding base _, _, tokens, ?_, Nat.le_refl _, rfl, ht⟩
    unfold readRawLines
    dsimp only
    rw [hnext]
    dsimp only
    rw [if_pos hends]
    cases base <;> rfl

/-- The token in front of a line of a block of raw text. The first line opens the block. -/
def rawOpening (base : Option Nat) (start here : Position) : Token :=
  match base with
  | none => ⟨.startRawText, here, here⟩
  | some _ => ⟨.newline, start, here⟩

/-- A deeper line is one of the block. -/
theorem acceptsRaw_deeper {base : Option Nat} {lines indentation content : List Char}
    {column : Nat} (h : Ahead lines indentation content) (hne : lines ≠ [])
    (hcontent : content ≠ []) (hdeeper : levels.headD 0 < indentation.length)
    (hcolumn : column = min indentation.length (base.getD indentation.length))
    (ht : Accepts ⟨.rawLine (base.getD column), levels⟩
      ⟨(place.after lines).after (indentation.take column), indentation.drop column ++ content⟩
      tokens) :
    AcceptsRaw levels base ⟨place, lines ++ (indentation ++ content)⟩
      (rawOpening base (place.after lines)
        ((place.after lines).after (indentation.take column)) :: tokens) := by
  intro fuel hfuel
  rcases fuel with _ | fuel
  · exact absurd hfuel (Nat.not_lt_zero _)
  · obtain ⟨line, hnext, hplace⟩ := nextLine_of_ahead h place
    have hgoes : ¬(content.isEmpty || decide (indentation.length ≤ levels.headD 0)) = true := by
      rw [Bool.or_eq_true, List.isEmpty_iff, decide_eq_true_iff]
      exact fun h => h.elim hcontent (Nat.not_le.2 hdeeper)
    rw [hplace hne] at ht ⊢
    obtain ⟨here, hhere⟩ : ∃ here : Cursor, here = ⟨(⟨line, 1⟩ : Position).after
        (indentation.take column), indentation.drop column ++ content⟩ := ⟨_, rfl⟩
    rw [← hhere] at ht
    obtain ⟨others, rfl, ht⟩ := ht
    have hshorter : (readText here).cursor.rest.length <
        (lines ++ (indentation ++ content)).length := by
      have htext := congrArg List.length (splitLine_append here.rest)
      have hpos := List.length_pos_iff.2 hne
      change (splitLine here.rest).2.length < _
      rw [hhere] at htext ⊢
      simp only [List.length_append, List.length_drop] at htext ⊢
      omega
    obtain ⟨raw, stop, behind, hread, hlength, rfl, hon⟩ := ht fuel (by dsimp only at hfuel; omega)
    have hraw : readRawLines (levels.headD 0) (fuel + 1) base
        ⟨place, lines ++ (indentation ++ content)⟩ =
        (rawOpening base ⟨line, 1⟩ ((⟨line, 1⟩ : Position).after (indentation.take column)) ::
          ((readText here).tokens ++ raw), stop) := by
      unfold readRawLines
      dsimp only
      rw [hnext]
      dsimp only
      rw [if_neg hgoes, ← hcolumn]
      dsimp only [Cursor.advance]
      rw [← hhere, hread]
      cases base <;> rw [hhere] <;> rfl
    refine ⟨_, stop, behind, hraw, (hlength.trans hshorter.le :), ?_, hon⟩
    rw [List.cons_append, List.append_assoc]

/-! ### Paths -/

theorem accepts_start {skipped : List Char} (h : (firstContent (skipped ++ rest)).rest = rest)
    (ht : Accepts ⟨if isLineEnd rest then .lineEnd false else .content, []⟩
      ⟨Position.first.after skipped, rest⟩ tokens) :
    read (skipped ++ rest) = .ok tokens := by
  have hlength : rest.length ≤ (skipped ++ rest).length := by simp
  have hstart : firstContent (skipped ++ rest) = ⟨Position.first.after skipped, rest⟩ := by
    obtain ⟨taken, htaken, hplace⟩ := firstContent_eq (skipped ++ rest)
    rw [h] at htaken
    obtain rfl : skipped = taken := List.append_cancel_right htaken
    exact congrArg₂ Cursor.mk hplace h
  unfold read
  dsimp only
  rw [hstart]
  dsimp only
  split at ht
  · rename_i hend
    rw [if_pos hend]
    exact bind_eq_ok.2 ⟨_, rfl, bind_eq_ok.2 ⟨_, ht _ (Nat.lt_succ_of_le hlength), rfl⟩⟩
  · rename_i hend
    obtain ⟨line, others, hline, rfl, hon⟩ := ht
    have hne : rest ≠ [] := by
      rintro rfl
      exact hend rfl
    have hle : line.cursor.rest.length ≤ rest.length := (goes_readLine hline hne []).length_le
    have hothers := hon ((skipped ++ rest).length + 1) (by omega)
    rw [if_neg hend]
    exact bind_eq_ok.2 ⟨_, hline, bind_eq_ok.2 ⟨_, hothers, rfl⟩⟩

/-- What the reader accepts behind a move it accepts with the move in front. -/
theorem Move.accepts {s t : State} {piece : Piece} (h : Move s piece rest t)
    (ht : Accepts t ⟨place.after piece.text, rest⟩ tokens) :
    Accepts s ⟨place, piece.text ++ rest⟩ (piece.tokens place ++ tokens) := by
  cases h with
  | start h =>
    rintro rfl
    rw [Piece.text_blank] at ht ⊢
    exact accepts_start h ht
  | bar hbar hline =>
    simp only [Piece.text, List.append_nil, List.append_assoc, Position.after_append] at ht ⊢
    exact accepts_bar hbar hline ht
  | whole h hline =>
    rw [Piece.text_token] at ht ⊢
    exact accepts_whole h hline ht
  | call hne hname hrest =>
    rw [Piece.text_token] at ht ⊢
    exact accepts_call hne hname hrest ht
  | element h => exact accepts_element h ht
  | ended h => exact acceptsHead_ended h ht
  | tag hc h =>
    rw [Piece.text_token] at ht ⊢
    exact acceptsHead_tag hc h ht
  | literal hc hne hname hrest =>
    rw [Piece.text_token] at ht ⊢
    exact acceptsHead_literal hc hne hname hrest ht
  | dot hblanks hrest => exact acceptsHead_dot hblanks hrest ht
  | opens => exact acceptsHead_opens ht
  | spread h =>
    rw [Piece.text_token] at ht ⊢
    exact acceptsHead_spread h ht
  | colon hne hblanks hrest => exact acceptsHead_colon hne hblanks hrest ht
  | slash h => exact acceptsHead_slash h ht
  | code h hline =>
    rw [Piece.text_token] at ht ⊢
    exact acceptsHead_code h hline ht
  | trailing hc hline h =>
    rw [Piece.text_blank] at ht ⊢
    exact acceptsHead_trailing hc hline h ht
  | text hc hline h =>
    simp only [Piece.text, List.append_nil, List.singleton_append] at ht ⊢
    exact acceptsHead_text hc hline h ht
  | interpolation h hline =>
    rw [Piece.text_token] at ht ⊢
    exact acceptsHead_interpolation h hline ht
  | listed hseparators hwritten h =>
    simp only [Piece.text, List.append_nil, List.append_assoc, Position.after_append] at ht ⊢
    exact accepts_listed hseparators hwritten h ht
  | closes hseparators =>
    simp only [Piece.text, List.append_nil, List.append_assoc, Position.after_append] at ht ⊢
    exact accepts_closes hseparators ht
  | @next _ _ opensBlock _ _ _ _ h hne hcontent hdeeper hindents =>
    simp only [Piece.text, List.append_nil, List.append_assoc, Position.after_append] at ht ⊢
    have hon := readsOn_next h hne hcontent hindents ht
    -- A line that is not deeper leaves the block of raw text in front of it empty.
    cases opensBlock with
    | false => exact hon
    | true => exact readsOn_raw (acceptsRaw_shallow h (.inr (hdeeper rfl)) hon)
  | @raw levels lines indentation _ h hne hcontent hdeeper =>
    simp only [Piece.text, Piece.tokens, List.append_nil, List.append_assoc,
      Position.after_append] at ht ⊢
    -- The first line of a block is taken from behind all of its blanks on.
    have hraw : AcceptsRaw levels none ⟨place, lines ++ (indentation ++ rest)⟩
        (rawOpening none (place.after lines)
          ((place.after lines).after (indentation.take indentation.length)) :: tokens) := by
      refine acceptsRaw_deeper h hne hcontent hdeeper (Nat.min_self _).symm ?_
      rw [List.take_length, List.drop_length]
      exact ht
    rw [List.take_length] at hraw
    exact readsOn_raw hraw
  | @finish levels opensBlock lines indentation h hne =>
    obtain ⟨-, rfl⟩ := ht
    have hon : ReadsOn levels false ⟨place, lines ++ indentation⟩ _ := readsOn_finish h hne
    have htokens : (⟨lines ++ indentation, List.replicate levels.length .outdent ++ [.eos], [],
        []⟩ : Piece).tokens place =
          Lexer.finish levels ⟨place.after (lines ++ indentation), []⟩ := by
      simp [Lexer.finish, Piece.tokens, Cursor.token, List.map_const']
    rw [htokens]
    simp only [Piece.text, List.append_nil]
    cases opensBlock with
    | false => exact hon
    | true =>
      refine readsOn_raw ?_
      rw [← List.append_nil indentation] at hon ⊢
      exact acceptsRaw_shallow h (.inl rfl) hon
  | rawText hline =>
    rw [Piece.text_token] at ht ⊢
    refine ⟨tokens, ?_, ?_⟩
    · rw [hline.readText_eq]
      rfl
    · rw [hline.readText_eq]
      exact ht
  | @rawNext _ base lines indentation content h hne hcontent hdeeper =>
    -- Another line is taken from the column of the first one on.
    have htext : (⟨lines, [.newline], indentation.take (min indentation.length base), []⟩ :
        Piece).text ++ (indentation.drop (min indentation.length base) ++ content) =
        lines ++ (indentation ++ content) := by
      simp only [Piece.text, List.append_nil, List.append_assoc]
      rw [← List.append_assoc (List.take _ _), List.take_append_drop]
    rw [htext]
    simp only [Piece.text, List.append_nil, Position.after_append] at ht
    exact acceptsRaw_deeper h hne hcontent hdeeper rfl ht
  | rawClose h hdeeper =>
    rw [Piece.text_token, List.nil_append]
    exact acceptsRaw_shallow h hdeeper ht

/-- The text of a path is accepted where what it leads to is. -/
theorem Path.accepts {s t : State} {pieces : List Piece} (h : Path s pieces rest t)
    (ht : Accepts t ⟨place.after (textOf pieces), rest⟩ tokens) :
    Accepts s ⟨place, textOf pieces ++ rest⟩ (tokensFrom place pieces ++ tokens) := by
  induction h generalizing place with
  | nil => exact ht
  | cons hmove _ ih =>
    rw [textOf_cons, Position.after_append] at ht
    rw [textOf_cons, List.append_assoc, tokensFrom, List.append_assoc]
    exact hmove.accepts (ih ht)

end Lexer

open Lexer

/-- The text of a path from the start to the end is read, and has the tokens of the path. -/
theorem tokenize_of_path {pieces : List Piece}
    (h : Path ⟨.start, []⟩ pieces [] ⟨.done, []⟩) :
    tokenize (String.ofList (textOf pieces)) = .ok (tokensFrom .first pieces) := by
  have haccepts : Accepts ⟨.start, []⟩ ⟨.first, textOf pieces ++ []⟩
      (tokensFrom .first pieces ++ []) := h.accepts ⟨rfl, rfl⟩
  rw [List.append_nil, List.append_nil] at haccepts
  rw [tokenize, String.toList_ofList]
  exact haccepts rfl

theorem exists_tokenize_of_path {pieces : List Piece}
    (h : Path ⟨.start, []⟩ pieces [] ⟨.done, []⟩) :
    ∃ tokens, tokenize (String.ofList (textOf pieces)) = .ok tokens :=
  ⟨_, tokenize_of_path h⟩

end PugLint
