import PugLint.Proofs.Forest.Attributes

/-!
# Reading written heads

The head of an element, as a forest writes it, is read back as one token for each
of its parts: every scanner stops where the next part starts.

* `ReadsAs`: a line is read as tokens of given kinds;
* `readElement_written`: the head of an element is read as its parts;
* `keywordLine?_written`: the line of an element is no document type and no control
  line;
* `readLine_written`: the line of an element is read as the tokens of its head.
-/

namespace PugLint

namespace Lexer

/-! ### Parts of a head -/

/-- A line is read as tokens of given kinds, up to what is left behind it, and no
    block of raw text follows. -/
def ReadsAs (result : Except LexError LineTokens) (kinds : List TokenKind) (rest : List Char) :
    Prop :=
  ∃ line, result = .ok line ∧ line.tokens.map Token.kind = kinds ∧ line.cursor.rest = rest ∧
    line.opensBlock = false

theorem ReadsAs.prepending {result : Except LexError LineTokens} {kinds : List TokenKind}
    {rest : List Char} (h : ReadsAs result kinds rest) (tokens : List Token) :
    ReadsAs (result.map (.prepending tokens)) (tokens.map Token.kind ++ kinds) rest := by
  obtain ⟨line, rfl, hkinds, hrest, hblock⟩ := h
  refine ⟨line.prepending tokens, rfl, ?_, hrest, hblock⟩
  rw [LineTokens.prepending, List.map_append, hkinds]

/-- What may follow a name: no character of names. -/
def EndsWord (rest : List Char) : Prop :=
  ∀ c ∈ rest.head?, isTagChar c = false

theorem endsWord_cons {c : Char} (h : isTagChar c = false) (rest : List Char) :
    EndsWord (c :: rest) := by
  intro d hd
  cases hd
  exact h

theorem endsWord_of_isLineEnd {rest : List Char} (h : isLineEnd rest = true) :
    EndsWord rest := by
  rcases eq_of_isLineEnd h with rfl | ⟨cs, rfl⟩ | ⟨cs, rfl⟩
  · exact nofun
  · exact endsWord_cons rfl _
  · exact endsWord_cons rfl _

theorem isTagChar_of_isLiteralChar {c : Char} (h : isLiteralChar c = true) :
    isTagChar c = true := by
  simp only [isLiteralChar, Bool.or_eq_true] at h
  simp only [isTagChar, Bool.or_eq_true]
  exact .inl h

theorem splitLine_of_isLineEnd {rest : List Char} (h : isLineEnd rest = true) :
    splitLine rest = ([], rest) := by
  cases rest with
  | nil => rfl
  | cons c rest => rw [splitLine, if_pos h]

theorem trim_ne_nil {text : List Char} (h : ∃ c ∈ text, Text.isBlank c = false) :
    (Text.trim text).isEmpty = false := by
  obtain ⟨c, hc, hblank⟩ := h
  have hleft : c ∈ Text.trimLeft text := by
    rw [← List.takeWhile_append_dropWhile (p := Text.isBlank) (l := text)] at hc
    rcases List.mem_append.1 hc with hc | hc
    · exact absurd (List.mem_takeWhile_imp hc) (by simp [hblank])
    · exact hc
  have hright : c ∈ Text.trim text := by
    rw [← List.mem_reverse,
      ← List.takeWhile_append_dropWhile (p := Text.isBlank) (l := (Text.trimLeft text).reverse)]
      at hleft
    rcases List.mem_append.1 hleft with hc | hc
    · exact absurd (List.mem_takeWhile_imp hc) (by simp [hblank])
    · exact List.mem_reverse.2 hc
  cases ht : Text.trim text with
  | nil =>
    rw [ht] at hright
    exact absurd hright List.not_mem_nil
  | cons d ds => rfl

/-- Classes and ids are taken up to the end of their names. -/
theorem readElement_class {cs : List Char} (h : cs.head?.any isLiteralChar = true) (fuel : Nat)
    (p : Position) :
    readElement (fuel + 1) true ⟨p, '.' :: cs⟩ =
      (readElement fuel true
        ⟨p.after ('.' :: cs.takeWhile isLiteralChar), cs.dropWhile isLiteralChar⟩).map
        (.prepending [(⟨p, '.' :: cs⟩ : Cursor).token
          (.classLiteral (String.ofList (cs.takeWhile isLiteralChar)))
          ('.' :: cs.takeWhile isLiteralChar)]) :=
  if_pos h

theorem readElement_id {cs : List Char} (h : cs.head?.any isLiteralChar = true) (fuel : Nat)
    (p : Position) :
    readElement (fuel + 1) true ⟨p, '#' :: cs⟩ =
      (readElement fuel true
        ⟨p.after ('#' :: cs.takeWhile isLiteralChar), cs.dropWhile isLiteralChar⟩).map
        (.prepending [(⟨p, '#' :: cs⟩ : Cursor).token
          (.idLiteral (String.ofList (cs.takeWhile isLiteralChar)))
          ('#' :: cs.takeWhile isLiteralChar)]) :=
  if_pos h

theorem readElement_literal {literal : Literal} (h : literal.WellFormed) {rest : List Char}
    (hrest : EndsWord rest) (fuel : Nat) (p : Position) :
    readElement (fuel + 1) true ⟨p, literal.written ++ rest⟩ =
      (readElement fuel true ⟨p.after literal.written, rest⟩).map
        (.prepending [(⟨p, literal.written ++ rest⟩ : Cursor).token literal.kind
          literal.written]) := by
  obtain ⟨hne, hchars⟩ := h
  have hstop : ∀ c ∈ rest.head?, isLiteralChar c = false := by
    intro c hc
    by_contra hliteral
    exact Bool.false_ne_true
      ((hrest c hc).symm.trans (isTagChar_of_isLiteralChar (by simpa using hliteral)))
  have hhead : (literal.name.toList ++ rest).head?.any isLiteralChar = true := by
    cases hn : literal.name.toList with
    | nil => exact absurd hn hne
    | cons c cs => exact hchars c (hn ▸ List.mem_cons_self)
  obtain ⟨htake, hdrop⟩ := takeWhile_append_stop hchars hstop
  cases literal with
  | ofClass name =>
    simp only [Literal.name] at hhead htake hdrop
    rw [Literal.written, List.cons_append, readElement_class hhead, htake, hdrop,
      String.ofList_toList]
    rfl
  | ofId name =>
    simp only [Literal.name] at hhead htake hdrop
    rw [Literal.written, List.cons_append, readElement_id hhead, htake, hdrop,
      String.ofList_toList]
    rfl

theorem readElement_parenthesis (fuel : Nat) (p : Position) (cs : List Char) :
    readElement (fuel + 1) true ⟨p, '(' :: cs⟩ = do
      let (attributes, closed) ← readAttributes p (cs.length + 1) ⟨p.next '(', cs⟩
      let line ← readElement fuel true closed
      return line.prepending
        ((⟨p, '(' :: cs⟩ : Cursor).token .startAttributes ['('] :: attributes) := rfl

theorem readElement_tag {c : Char} {cs : List Char} (h : isNameEdge c = true)
    (hend : isLineEnd (c :: cs) = false) (fuel : Nat) (p : Position) :
    readElement (fuel + 1) false ⟨p, c :: cs⟩ =
      (readElement fuel true ⟨p.after (scanTag (c :: cs)).1, (scanTag (c :: cs)).2⟩).map
        (.prepending [(⟨p, c :: cs⟩ : Cursor).token
          (.tag (String.ofList (scanTag (c :: cs)).1)) (scanTag (c :: cs)).1]) := by
  rw [readElement, if_neg (by simp [hend])]
  exact if_pos h

/-- The text of an element is taken up to the end of the line. -/
theorem readElement_text {text : Option String} {rest : List Char}
    (htext : ∀ value ∈ text, IsInlineText value.toList) (hrest : isLineEnd rest = true)
    (fuel : Nat) (p : Position) :
    ReadsAs (readElement (fuel + 1) true ⟨p, writtenText text ++ rest⟩)
      (text.map TokenKind.text).toList rest := by
  cases text with
  | none =>
    refine ⟨⟨[], ⟨p, rest⟩, false⟩, ?_, rfl, rfl, rfl⟩
    rw [readElement]
    exact if_pos hrest
  | some value =>
    have hvalue := htext value rfl
    have hsplit : splitLine (value.toList ++ rest) = (value.toList, rest) := by
      rw [splitLine_append_of_ne hvalue.chars, splitLine_of_isLineEnd hrest, List.append_nil]
    have htrim : ¬(Text.trim (splitLine (value.toList ++ rest)).1).isEmpty = true := by
      rw [hsplit, trim_ne_nil hvalue.not_blank]
      exact Bool.false_ne_true
    refine ⟨readText ⟨p.next ' ', value.toList ++ rest⟩, if_neg htrim, ?_, ?_, rfl⟩
    · simp [readText, hsplit, lastToken, Cursor.token]
    · simp [readText, hsplit, lastToken, Cursor.advance]

/-- A list of attributes, if there is one, and the text behind it. -/
theorem readElement_list {entries : List (String × Option String)} {list : List Char}
    (h : WrittenList entries list)
    (hnames : ∀ entry ∈ entries, IsAttributeName entry.1.toList)
    (hvalues : ∀ entry ∈ entries, ∀ value ∈ entry.2, IsQuoted value.toList)
    {text : Option String} {rest : List Char}
    (htext : ∀ value ∈ text, IsInlineText value.toList) (hrest : isLineEnd rest = true)
    {fuel : Nat} (hfuel : list.length < fuel) (p : Position) :
    ReadsAs (readElement fuel true ⟨p, list ++ (writtenText text ++ rest)⟩)
      (listKinds entries ++ (text.map TokenKind.text).toList) rest := by
  obtain ⟨fuel, rfl⟩ : ∃ n, fuel = n + 1 := ⟨fuel - 1, by omega⟩
  cases h with
  | nil => exact readElement_text htext hrest fuel p
  | parens hgap inner =>
    rename_i gap inside
    obtain ⟨fuel, rfl⟩ : ∃ n, fuel = n + 1 := ⟨fuel - 1, by simp at hfuel; omega⟩
    have hlength : entries.length <
        (gap ++ (inside ++ ')' :: (writtenText text ++ rest))).length + 1 := by
      have := inner.length_le hnames
      simp only [List.length_append]
      omega
    obtain ⟨tokens, ⟨place, _⟩, hread, hkinds, rfl⟩ := readAttributes_written inner hnames hvalues
      hgap p (p.next '(') hlength (writtenText text ++ rest)
    obtain ⟨line, hline, hlineKinds, hcursor, hblock⟩ := readElement_text htext hrest fuel place
    have hlist : '(' :: gap ++ inside ++ [')'] ++ (writtenText text ++ rest) =
        '(' :: (gap ++ (inside ++ ')' :: (writtenText text ++ rest))) := by simp
    rw [hlist, readElement_parenthesis, hread]
    simp only [bind, Except.bind, hline]
    refine ⟨_, rfl, ?_, hcursor, hblock⟩
    rw [LineTokens.prepending, List.map_append, List.map_cons, hkinds, hlineKinds,
      inner.listKinds_eq]
    rfl

theorem endsWord_literals {tail : List Char} (h : EndsWord tail) (literals : List Literal) :
    EndsWord (literals.flatMap Literal.written ++ tail) := by
  cases literals with
  | nil => exact h
  | cons literal literals => cases literal <;> exact endsWord_cons rfl _

/-- Classes and ids, and what follows them, which is `size` characters long. -/
theorem readElement_literals {literals : List Literal}
    (hliterals : ∀ literal ∈ literals, literal.WellFormed) {tail rest : List Char}
    {kinds : List TokenKind} {size : Nat} (htail : EndsWord tail)
    (hread : ∀ fuel p, size < fuel → ReadsAs (readElement fuel true ⟨p, tail⟩) kinds rest)
    {fuel : Nat} (hfuel : (literals.flatMap Literal.written).length + size < fuel) (p : Position) :
    ReadsAs (readElement fuel true ⟨p, literals.flatMap Literal.written ++ tail⟩)
      (literals.map Literal.kind ++ kinds) rest := by
  induction literals generalizing fuel p with
  | nil => exact hread fuel p (by simpa using hfuel)
  | cons literal literals ih =>
    obtain ⟨fuel, rfl⟩ : ∃ n, fuel = n + 1 := ⟨fuel - 1, by omega⟩
    obtain ⟨hliteral, hothers⟩ := List.forall_mem_cons.1 hliterals
    have hsize : 0 < literal.written.length := by
      cases literal <;> exact Nat.succ_pos _
    have hfuel' : (literals.flatMap Literal.written).length + size < fuel := by
      rw [List.flatMap_cons, List.length_append] at hfuel
      omega
    rw [List.flatMap_cons, List.append_assoc,
      readElement_literal hliteral (endsWord_literals htail literals)]
    exact (ih hothers hfuel' _).prepending _

/-! ### Heads -/

/-- A tag name is taken as a whole. -/
theorem scanTag_written {name rest : List Char} (h : IsTagName name) (hrest : EndsWord rest) :
    scanTag (name ++ rest) = (name, rest) := by
  obtain ⟨htake, hdrop⟩ := takeWhile_append_stop h.chars hrest
  obtain ⟨c, hc, hedge⟩ := h.ends
  have hending : name.reverse.takeWhile (fun c => c == ':' || c == '-') = [] := by
    rw [← List.head?_reverse] at hc
    cases hr : name.reverse with
    | nil => rfl
    | cons d ds =>
      rw [hr] at hc
      cases hc
      refine List.takeWhile_cons_of_neg fun hcolon => ?_
      rw [Bool.or_eq_true, beq_iff_eq, beq_iff_eq] at hcolon
      rcases hcolon with rfl | rfl <;> exact absurd hedge (by decide)
  simp only [scanTag, htake, hdrop, hending]
  simp

/-- The line of an element is no document type and no control line. -/
theorem keywordLine?_written {name line : List Char} (h : IsTagName name)
    (hline : EndsWord line) : keywordLine? (name ++ line) = none := by
  have hlower {c : Char} (hc : c.isLower = true) : isTagChar c = true := by
    have hletter : c.isAlpha = true := Bool.or_eq_true_iff.2 (.inr hc)
    have halphanum : c.isAlphanum = true := Bool.or_eq_true_iff.2 (.inl hletter)
    rw [isTagChar, halphanum]
    rfl
  have hstop : ∀ c ∈ line.head?, c.isLower = false := by
    intro c hc
    by_contra hl
    exact Bool.false_ne_true ((hline c hc).symm.trans (hlower (by simpa using hl)))
  by_cases hall : ∀ c ∈ name, c.isLower = true
  · -- The word at the start of the line is the name.
    obtain ⟨htake, hdrop⟩ := takeWhile_append_stop hall hstop
    simp only [keywordLine?, htake, hdrop, beq_false_of_ne h.not_doctype, h.not_keyword,
      Option.map_none, Bool.false_eq_true, if_false, ite_self]
  · -- The word ends inside of the name, where no blank follows.
    obtain ⟨c, cs, hcs⟩ : ∃ c cs, name.dropWhile Char.isLower = c :: cs := by
      cases hd : name.dropWhile Char.isLower with
      | nil => exact absurd (List.dropWhile_eq_nil_iff.1 hd) hall
      | cons c cs => exact ⟨c, cs, rfl⟩
    have hc : c ∈ name := (List.dropWhile_suffix _).subset (hcs ▸ List.mem_cons_self)
    have hdrop : (name ++ line).dropWhile Char.isLower = c :: (cs ++ line) := by
      rw [List.dropWhile_append, hcs]
      rfl
    have hblank : c ≠ ' ' := by
      rintro rfl
      exact absurd (h.chars _ hc) (by decide)
    rw [keywordLine?, hdrop]
    refine if_neg ?_
    simpa using hblank

theorem endsWord_text {rest : List Char} (h : isLineEnd rest = true) (text : Option String) :
    EndsWord (writtenText text ++ rest) := by
  cases text with
  | none => exact endsWord_of_isLineEnd h
  | some text => exact endsWord_cons rfl _

theorem endsWord_list {entries : List (String × Option String)} {list tail : List Char}
    (h : WrittenList entries list) (htail : EndsWord tail) : EndsWord (list ++ tail) := by
  cases h with
  | nil => exact htail
  | parens => exact endsWord_cons rfl _

theorem isLineEnd_eq_false {c : Char} (h : isNameEdge c = true) (cs : List Char) :
    isLineEnd (c :: cs) = false := by
  unfold isLineEnd
  split
  · rename_i heq
    cases heq
  · rename_i heq
    cases heq
    exact absurd h (by decide)
  · rename_i heq
    cases heq
    exact absurd h (by decide)
  · rfl

theorem IsTagName.exists_cons {name : List Char} (h : IsTagName name) :
    ∃ c cs, name = c :: cs ∧ isNameEdge c = true := by
  obtain ⟨c, hc, hedge⟩ := h.starts
  cases name with
  | nil => cases hc
  | cons d cs =>
    cases hc
    exact ⟨c, cs, rfl, hedge⟩

/-- The head of an element is read as its tokens, up to the end of the line. -/
theorem readElement_written {head : Head} {line rest : List Char} (h : head.Written line)
    (hrest : isLineEnd rest = true) {fuel : Nat} (hfuel : line.length < fuel) (p : Position) :
    ReadsAs (readElement fuel false ⟨p, line ++ rest⟩) head.kinds rest := by
  obtain ⟨hhead, hlist⟩ := h
  rename_i list
  obtain ⟨fuel, rfl⟩ : ∃ n, fuel = n + 1 := ⟨fuel - 1, by omega⟩
  have htail := endsWord_list hlist (endsWord_text hrest head.text)
  have hscan := scanTag_written hhead.name (endsWord_literals htail head.literals)
  obtain ⟨c, cs, hname, hedge⟩ := IsTagName.exists_cons hhead.name
  have hsize : (head.literals.flatMap Literal.written).length + list.length < fuel := by
    simp only [List.length_append, hname, List.length_cons] at hfuel
    omega
  have hothers := readElement_literals hhead.literals htail
    (fun fuel p hsize => readElement_list hlist hhead.names hhead.values hhead.text hrest hsize p)
    hsize (p.after head.name.toList)
  simp only [List.append_assoc]
  rw [hname, List.cons_append] at hscan ⊢
  rw [readElement_tag hedge (isLineEnd_eq_false hedge _), hscan, ← hname, String.ofList_toList]
  exact hothers.prepending _

theorem EndsWord.splitLine {text : List Char} (h : EndsWord text) :
    EndsWord (splitLine text).1 := by
  intro c hc
  refine h c ?_
  rw [← splitLine_append text, List.head?_append, Option.mem_def.1 hc]
  rfl

/-- A line that starts with a tag name is read as an element. -/
theorem readLine_edge {c : Char} {cs : List Char} (hedge : isNameEdge c = true)
    (hkeyword : keywordLine? (splitLine (c :: cs)).1 = none) (p : Position) :
    readLine ⟨p, c :: cs⟩ = readElement ((c :: cs).length + 1) false ⟨p, c :: cs⟩ := by
  unfold readLine
  dsimp only
  split
  -- All other kinds of lines start with a sign.
  case h_11 => rw [hkeyword]
  case h_1 heq => cases heq
  all_goals
    rename_i heq
    rw [(List.cons.inj heq).1] at hedge
    exact absurd hedge (by decide)

/-- The line of an element is read as the tokens of its head. -/
theorem readLine_written {head : Head} {line rest : List Char} (h : head.Written line)
    (hrest : isLineEnd rest = true) (p : Position) :
    ReadsAs (readLine ⟨p, line ++ rest⟩) head.kinds rest := by
  have hfuel : line.length < (line ++ rest).length + 1 := by
    rw [List.length_append]
    omega
  have hread := readElement_written h hrest hfuel p
  obtain ⟨hhead, hlist⟩ := h
  rename_i list
  have hends := endsWord_literals (endsWord_list hlist (endsWord_text hrest head.text))
    head.literals
  have hchars : ∀ c ∈ head.name.toList, c ≠ '\n' ∧ c ≠ '\r' := by
    refine fun c hc => ⟨?_, ?_⟩
    all_goals
      rintro rfl
      exact absurd (hhead.name.chars _ hc) (by decide)
  have hkeyword : keywordLine? (splitLine (head.name.toList ++
      (head.literals.flatMap Literal.written ++ (list ++ (writtenText head.text ++ rest))))).1 =
      none := by
    rw [splitLine_append_of_ne hchars]
    exact keywordLine?_written hhead.name hends.splitLine
  obtain ⟨c, cs, hname, hedge⟩ := IsTagName.exists_cons hhead.name
  simp only [List.append_assoc] at hread ⊢
  rw [hname, List.cons_append] at hkeyword hread ⊢
  rw [readLine_edge hedge hkeyword]
  exact hread

end Lexer

end PugLint
