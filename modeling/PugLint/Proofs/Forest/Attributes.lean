import PugLint.Proofs.Forest
import PugLint.Proofs.Token.Scanning

/-!
# Reading written attributes

Attributes, as a forest writes them, are read back as they are: a name ends where
the sign or the gap behind it starts, a value ends with its quote, and gaps are
passed over.

* `scanValue_quoted`, `scanName_append_of_isBalanced`: values and names;
* `readAttribute_written`: an attribute is read as one token;
* `readAttributes_written`: a list of attributes is read as its attributes and its
  end.
-/

namespace PugLint

/-- Written attributes start with the name of one of them. -/
theorem WrittenAttributes.exists_name {entries : List (String × Option String)}
    {text : List Char} (h : WrittenAttributes entries text) :
    ∃ entry more, entry ∈ entries ∧ text = entry.1.toList ++ more := by
  cases h with
  | last entry => exact ⟨entry, _, List.mem_cons_self, List.append_assoc _ _ _⟩
  | cons entry _ _ _ =>
    exact ⟨entry, _, List.mem_cons_self,
      (List.append_assoc _ _ _).trans (List.append_assoc _ _ _)⟩

theorem WrittenAttributes.length_le {entries : List (String × Option String)} {text : List Char}
    (h : WrittenAttributes entries text)
    (hnames : ∀ entry ∈ entries, IsAttributeName entry.1.toList) :
    entries.length ≤ text.length := by
  have hpos (entry : String × Option String) (hname : IsAttributeName entry.1.toList) :
      0 < entry.1.toList.length := by
    obtain ⟨c, hc, -⟩ := hname.starts
    exact List.length_pos_of_mem (List.mem_of_mem_head? hc)
  induction h with
  | last entry _ =>
    have := hpos entry (hnames entry List.mem_cons_self)
    simp only [writtenAttribute, List.length_append, List.length_singleton]
    omega
  | cons entry _ _ _ ih =>
    have := hpos entry (hnames entry List.mem_cons_self)
    have := ih fun other hm => hnames other (List.mem_cons_of_mem _ hm)
    simp only [writtenAttribute, List.length_append, List.length_cons]
    omega

theorem WrittenAttributes.listKinds_eq {entries : List (String × Option String)}
    {text : List Char} (h : WrittenAttributes entries text) :
    listKinds entries =
      .startAttributes :: entries.map (fun (name, value) => .attribute name value true) ++
        [.endAttributes] := by
  cases h <;> rfl

namespace Lexer

/-! ### Values and names -/

theorem taking_taking (cs ds : List Char) (result : Except LexError (List Char × List Char)) :
    taking cs (taking ds result) = taking (cs ++ ds) result := by
  cases result with
  | error e => rfl
  | ok taken => simp [taking, Except.map]

/-- In a string, a character that is no backslash is taken alone. -/
theorem scanValue_inside_cons {c : Char} (h : c ≠ '\\') (depth : Nat) (quote : Char)
    (start p : Position) (cs : List Char) :
    scanValue depth (.inside quote start) p (c :: cs) =
      taking [c] (scanValue depth (if c == quote then .outside else .inside quote start)
        (p.next c) cs) := by
  rw [scanValue.eq_def]
  simp only [beq_false_of_ne h, Bool.false_eq_true, if_false]

/-- The rest of a string is taken up to its quote. -/
theorem scanValue_inside {quote : Char} {body : List Char} (hquote : quote ∉ body)
    (hslash : '\\' ∉ body) (hne : quote ≠ '\\') (depth : Nat) (start p : Position)
    (rest : List Char) :
    ∃ p', scanValue depth (.inside quote start) p (body ++ quote :: rest) =
      taking (body ++ [quote]) (scanValue depth .outside p' rest) := by
  induction body generalizing p with
  | nil =>
    refine ⟨p.next quote, ?_⟩
    rw [List.nil_append, scanValue_inside_cons hne, if_pos (beq_self_eq_true _), List.nil_append]
  | cons c body ih =>
    rw [List.mem_cons, not_or] at hquote hslash
    obtain ⟨p', ih⟩ := ih hquote.2 hslash.2 (p.next c)
    refine ⟨p', ?_⟩
    rw [List.cons_append, scanValue_inside_cons (Ne.symm hslash.1),
      if_neg (by simpa using Ne.symm hquote.1), ih, taking_taking]
    rfl

/-- Outside of strings and brackets a value ends in front of a gap or a closing
    parenthesis. -/
theorem scanValue_ends {rest : List Char}
    (hrest : ∃ c ∈ rest.head?, isGap c = true ∨ c = ')') (p : Position) :
    scanValue 0 .outside p rest = .ok ([], rest) := by
  obtain ⟨c, hc, hends⟩ := hrest
  cases rest with
  | nil => cases hc
  | cons d rest =>
    cases hc
    have hd : c = ' ' ∨ c = '\t' ∨ c = ',' ∨ c = '\n' ∨ c = '\r' ∨ c = ')' := by
      simpa [isGap, or_assoc] using hends
    rw [scanValue.eq_def]
    rcases hd with rfl | rfl | rfl | rfl | rfl | rfl <;> rfl

/-- A value in quotes is taken as a whole. -/
theorem scanValue_quoted {value rest : List Char} (h : IsQuoted value)
    (hrest : ∃ c ∈ rest.head?, isGap c = true ∨ c = ')') (p : Position) :
    scanValue 0 .outside p (value ++ rest) = .ok (value, rest) := by
  obtain ⟨quote, body, hq, rfl, hquote, hslash⟩ := h
  have hne : quote ≠ '\\' := by
    rintro rfl
    exact absurd hq (by decide)
  obtain ⟨p', hinside⟩ := scanValue_inside hquote hslash hne 0 p (p.next quote) rest
  rw [List.append_assoc, List.cons_append, List.singleton_append, scanValue.eq_def]
  simp only [hq, if_true]
  rw [hinside, scanValue_ends hrest, taking_taking]
  simp [taking, Except.map]

theorem isBalanced_of_cons {depth : Nat} {c : Char} {cs : List Char}
    (h : isBalanced depth (c :: cs) = true) :
    isBalanced (if c == '[' then depth + 1 else if c == ']' then depth - 1 else depth) cs =
      true := by
  unfold isBalanced at h
  split at h
  · rename_i heq
    cases heq
  · rename_i heq
    cases heq
    exact h
  · rename_i heq
    cases heq
    exact (Bool.and_eq_true _ _ ▸ h).2
  · rename_i hopen hclose heq
    cases heq
    have hopen' : c ≠ '[' := hopen
    have hclose' : c ≠ ']' := hclose
    rw [if_neg (by simpa using hopen'), if_neg (by simpa using hclose')]
    exact h

/-- A name with balanced brackets is taken up to the sign or the gap behind it. -/
theorem scanName_append_of_isBalanced {depth : Nat} {name rest : List Char}
    (hbalanced : isBalanced depth name = true)
    (hchars : ∀ c ∈ name, Text.isAsciiBlank c = false ∧ c ≠ '=' ∧ c ≠ ',' ∧ c ≠ ')')
    (hrest : ∃ c ∈ rest.head?, isGap c = true ∨ c = ')' ∨ c = '=')
    (hends : name.getLast? ≠ some '!') :
    scanName depth (name ++ rest) = (name, rest) := by
  induction name generalizing depth with
  | nil =>
    obtain ⟨c, hc, hstop⟩ := hrest
    cases rest with
    | nil => cases hc
    | cons d rest =>
      cases hc
      have hd : depth = 0 := by simpa [isBalanced] using hbalanced
      have hc : c = ' ' ∨ c = '\t' ∨ c = ',' ∨ c = '\n' ∨ c = '\r' ∨ c = ')' ∨ c = '=' := by
        simpa [isGap, or_assoc] using hstop
      rw [List.nil_append, scanName, hd]
      rcases hc with rfl | rfl | rfl | rfl | rfl | rfl | rfl <;> rfl
  | cons c name ih =>
    obtain ⟨hc, hname⟩ := List.forall_mem_cons.1 hchars
    -- An exclamation mark is followed by a character of the name, which is no sign.
    have hmark : (c == '!' && (name ++ rest).head? == some '=') = false := by
      cases name with
      | nil =>
        have : c ≠ '!' := fun h => hends (by rw [h]; rfl)
        rw [beq_false_of_ne this, Bool.false_and]
      | cons d name =>
        have : some d ≠ some '=' := fun h => (hname d List.mem_cons_self).2.1 (Option.some.inj h)
        rw [List.cons_append, List.head?_cons, beq_false_of_ne this, Bool.and_false]
    have hends' : name.getLast? ≠ some '!' := by
      cases name with
      | nil => exact nofun
      | cons d name => exact fun h => hends (by rwa [List.getLast?_cons_cons])
    have hblank : c ≠ ' ' ∧ c ≠ '\t' ∧ c ≠ '\n' ∧ c ≠ '\r' := by
      have := hc.1
      simp only [Text.isAsciiBlank, Bool.or_eq_false_iff, beq_eq_false_iff_ne] at this
      exact ⟨this.1.1.1.1, this.1.1.1.2, this.1.1.2, this.2⟩
    rw [List.cons_append, scanName, hmark]
    simp only [beq_false_of_ne hblank.1, beq_false_of_ne hblank.2.1, beq_false_of_ne hblank.2.2.1,
      beq_false_of_ne hblank.2.2.2, beq_false_of_ne hc.2.1, beq_false_of_ne hc.2.2.1,
      beq_false_of_ne hc.2.2.2, Bool.or_false, Bool.and_false, Bool.false_eq_true, if_false]
    rw [ih (isBalanced_of_cons hbalanced) hname hends']

/-! ### Attributes -/

/-- What may stand behind a written attribute: a gap, or the closing parenthesis. -/
def EndsAttribute (rest : List Char) : Prop :=
  ∃ c ∈ rest.head?, isGap c = true ∨ c = ')'

/-- There is no sign in front, be there blanks or not. -/
def NoSign (rest : List Char) : Prop :=
  ∀ behind, rest.dropWhile isInlineBlank ≠ '=' :: behind ∧
    rest.dropWhile isInlineBlank ≠ '!' :: '=' :: behind

theorem scanAssignment_of_noSign {rest : List Char} (h : NoSign rest) :
    scanAssignment rest = none := by
  unfold scanAssignment
  split
  · rename_i behind heq
    exact absurd heq (h behind).1
  · rename_i behind heq
    exact absurd heq (h behind).2
  · rfl

theorem noSign_gap {gap rest : List Char} (hgap : ∀ c ∈ gap, isGap c = true)
    (hrest : NoSign rest) : NoSign (gap ++ rest) := by
  induction gap with
  | nil => exact hrest
  | cons c gap ih =>
    obtain ⟨hc, hothers⟩ := List.forall_mem_cons.1 hgap
    have hc' : c = ' ' ∨ c = '\t' ∨ c = ',' ∨ c = '\n' ∨ c = '\r' := by
      simpa [isGap, or_assoc] using hc
    -- A blank is passed over, and any other part of a gap is no sign.
    rcases hc' with rfl | rfl | rfl | rfl | rfl
    · exact ih hothers
    · exact ih hothers
    all_goals exact fun behind => ⟨nofun, nofun⟩

theorem noSign_close (rest : List Char) : NoSign (')' :: rest) :=
  fun _ => ⟨nofun, nofun⟩

theorem noSign_name {name : List Char} (h : IsAttributeName name) (rest : List Char) :
    NoSign (name ++ rest) := by
  obtain ⟨c, hc, -⟩ := h.starts
  cases name with
  | nil => cases hc
  | cons d name =>
    obtain ⟨hd, hname⟩ := List.forall_mem_cons.1 h.chars
    have hblank : isInlineBlank d = false := by
      have := hd.1
      simp only [Text.isAsciiBlank, Bool.or_eq_false_iff] at this
      rw [isInlineBlank, this.1.1.1.1, this.1.1.1.2, Bool.false_or]
    rw [NoSign, List.cons_append, List.dropWhile_cons_of_neg (by simp [hblank])]
    refine fun behind => ⟨fun heq => hd.2.1 (List.cons.inj heq).1, fun heq => ?_⟩
    -- A name that starts with an exclamation mark goes on with a character of its own.
    obtain ⟨rfl, htail⟩ := List.cons.inj heq
    cases name with
    | nil => exact h.ends rfl
    | cons e name => exact (hname e List.mem_cons_self).2.1 (List.cons.inj htail).1

/-- The name of an attribute is taken up to what follows it. -/
theorem readName_written {name rest : List Char} (h : IsAttributeName name)
    (hrest : ∃ c ∈ rest.head?, isGap c = true ∨ c = ')' ∨ c = '=') (p : Position) :
    readName ⟨p, name ++ rest⟩ = .ok (name, name, rest) := by
  have hscan := scanName_append_of_isBalanced h.balanced h.chars hrest h.ends
  obtain ⟨c, hc, hquote, hapostrophe⟩ := h.starts
  cases name with
  | nil => cases hc
  | cons d name =>
    cases hc
    rw [List.cons_append] at hscan ⊢
    simp only [readName, beq_false_of_ne hquote, beq_false_of_ne hapostrophe, Bool.or_false,
      Bool.false_eq_true, if_false, hscan]
    rfl

/-- A written attribute is read as one token. -/
theorem readAttribute_written {entry : String × Option String} {rest : List Char}
    (hname : IsAttributeName entry.1.toList) (hvalue : ∀ value ∈ entry.2, IsQuoted value.toList)
    (hends : EndsAttribute rest) (hsign : NoSign rest) (p : Position) :
    ∃ token cursor, readAttribute ⟨p, writtenAttribute entry ++ rest⟩ = .ok (token, cursor) ∧
      token.kind = .attribute entry.1 entry.2 true ∧ cursor.rest = rest := by
  obtain ⟨name, value⟩ := entry
  obtain ⟨c, hc, hstop⟩ := hends
  cases value with
  | none =>
    have hread := readName_written hname ⟨c, hc, hstop.imp id .inl⟩ p
    rw [writtenAttribute, readAttribute, Option.map_none, Option.getD_none, List.append_nil, hread]
    simp only [bind, Except.bind, scanAssignment_of_noSign hsign]
    exact ⟨_, _, rfl, by simp [Cursor.token, String.ofList_toList], rfl⟩
  | some value =>
    have hquoted := hvalue value rfl
    have hread : readName ⟨p, name.toList ++ ('=' :: value.toList ++ rest)⟩ =
        .ok (name.toList, name.toList, '=' :: value.toList ++ rest) :=
      readName_written hname ⟨'=', rfl, .inr (.inr rfl)⟩ p
    have hassign : scanAssignment ('=' :: value.toList ++ rest) =
        some (['='], true, value.toList ++ rest) := rfl
    obtain ⟨quote, body, hq, heq, -, -⟩ := hvalue value rfl
    -- The value starts with its quote, so there are no blanks in front of it.
    have hblank : isInlineBlank quote = false := by
      have hq' : quote = '"' ∨ quote = '\'' ∨ quote = '\x60' := by
        simpa [isQuote, or_assoc] using hq
      rcases hq' with rfl | rfl | rfl <;> rfl
    have htake : (value.toList ++ rest).takeWhile isInlineBlank = [] := by
      rw [heq, List.cons_append, List.cons_append, List.takeWhile_cons_of_neg (by simp [hblank])]
    have hdrop : (value.toList ++ rest).dropWhile isInlineBlank = value.toList ++ rest := by
      rw [heq, List.cons_append, List.cons_append, List.dropWhile_cons_of_neg (by simp [hblank])]
    have hne : value.toList.isEmpty = false := by rw [heq]; rfl
    rw [writtenAttribute, readAttribute, Option.map_some, Option.getD_some, List.append_assoc,
      hread]
    simp only [bind, Except.bind, hassign, htake, hdrop, Cursor.advance,
      scanValue_quoted (hvalue value rfl) ⟨c, hc, hstop⟩, hne, Bool.false_eq_true, if_false]
    exact ⟨_, _, rfl, by simp [Cursor.token, String.ofList_toList], rfl⟩

/-! ### Lists of attributes -/

theorem isSeparator_of_isGap {c : Char} (h : isGap c = true) : isSeparator c = true := by
  have hc : c = ' ' ∨ c = '\t' ∨ c = ',' ∨ c = '\n' ∨ c = '\r' := by
    simpa [isGap, or_assoc] using h
  rcases hc with rfl | rfl | rfl | rfl | rfl <;> rfl

theorem isSeparator_eq_false {name : List Char} (h : IsAttributeName name) {c : Char}
    (hc : c ∈ name) : isSeparator c = false := by
  obtain ⟨hblank, -, hcomma, -⟩ := h.chars c hc
  rw [isSeparator, hblank, Bool.false_or, beq_false_of_ne hcomma]

/-- Gaps are passed over, and then an attribute is read. -/
theorem readAttributes_step {entry : String × Option String} {gap : List Char}
    (hgap : ∀ c ∈ gap, isGap c = true) (hname : IsAttributeName entry.1.toList)
    (start p : Position) (fuel : Nat) (rest : List Char) :
    readAttributes start (fuel + 1) ⟨p, gap ++ (writtenAttribute entry ++ rest)⟩ = do
      let (token, cursor) ← readAttribute ⟨p.after gap, writtenAttribute entry ++ rest⟩
      let (others, cursor) ← readAttributes start fuel cursor
      return (token :: others, cursor) := by
  obtain ⟨c, hc, -⟩ := hname.starts
  obtain ⟨cs, hcs⟩ : ∃ cs, entry.1.toList = c :: cs := by
    cases hl : entry.1.toList with
    | nil => rw [hl] at hc; cases hc
    | cons d cs => rw [hl] at hc; cases hc; exact ⟨cs, rfl⟩
  have hsep : ∀ c ∈ gap, isSeparator c = true := fun c hm => isSeparator_of_isGap (hgap c hm)
  have hm : c ∈ entry.1.toList := hcs ▸ List.mem_cons_self
  have hd : ¬isSeparator c = true := by
    rw [isSeparator_eq_false hname hm]
    exact Bool.false_ne_true
  have hclose : c ≠ ')' := (hname.chars c hm).2.2.2
  rw [readAttributes, writtenAttribute, hcs]
  simp only [List.takeWhile_append_of_pos hsep, List.dropWhile_append_of_pos hsep,
    List.cons_append, List.takeWhile_cons_of_neg hd, List.dropWhile_cons_of_neg hd,
    List.append_nil, Cursor.advance]
  split
  · rename_i heq
    cases heq
  · rename_i heq
    exact absurd (List.cons.inj heq).1 hclose
  · rfl

/-- Behind the last gap the list ends. -/
theorem readAttributes_close {gap : List Char} (hgap : ∀ c ∈ gap, isGap c = true)
    (start p : Position) (fuel : Nat) (rest : List Char) :
    ∃ token cursor, readAttributes start (fuel + 1) ⟨p, gap ++ ')' :: rest⟩ =
        .ok ([token], cursor) ∧ token.kind = .endAttributes ∧ cursor.rest = rest := by
  have hsep : ∀ c ∈ gap, isSeparator c = true := fun c hm => isSeparator_of_isGap (hgap c hm)
  have hd : ¬isSeparator ')' = true := by decide
  rw [readAttributes]
  simp only [List.takeWhile_append_of_pos hsep, List.dropWhile_append_of_pos hsep,
    List.takeWhile_cons_of_neg hd, List.dropWhile_cons_of_neg hd, Cursor.advance]
  exact ⟨_, _, rfl, rfl, rfl⟩

/-- A written list of attributes is read as its attributes and its end. -/
theorem readAttributes_written {entries : List (String × Option String)} {text : List Char}
    (h : WrittenAttributes entries text)
    (hnames : ∀ entry ∈ entries, IsAttributeName entry.1.toList)
    (hvalues : ∀ entry ∈ entries, ∀ value ∈ entry.2, IsQuoted value.toList)
    {gap : List Char} (hgap : ∀ c ∈ gap, isGap c = true) (start p : Position) {fuel : Nat}
    (hfuel : entries.length < fuel) (rest : List Char) :
    ∃ tokens cursor, readAttributes start fuel ⟨p, gap ++ (text ++ ')' :: rest)⟩ =
        .ok (tokens, cursor) ∧
      tokens.map Token.kind =
        entries.map (fun (name, value) => .attribute name value true) ++ [.endAttributes] ∧
      cursor.rest = rest := by
  induction h generalizing gap p fuel with
  | last entry hlast =>
    rename_i lastGap
    obtain ⟨fuel, rfl⟩ : ∃ n, fuel = n + 2 := ⟨fuel - 2, by simp at hfuel; omega⟩
    have hname := hnames entry List.mem_cons_self
    have hends : EndsAttribute (lastGap ++ ')' :: rest) := by
      cases lastGap with
      | nil => exact ⟨')', rfl, .inr rfl⟩
      | cons c lastGap => exact ⟨c, rfl, .inl (hlast c List.mem_cons_self)⟩
    obtain ⟨token, ⟨place, _⟩, hread, hkind, rfl⟩ := readAttribute_written hname
      (hvalues entry List.mem_cons_self) hends (noSign_gap hlast (noSign_close rest)) (p.after gap)
    obtain ⟨last, closed, hclose, hlastKind, hclosed⟩ :=
      readAttributes_close hlast start place fuel rest
    refine ⟨[token, last], closed, ?_, ?_, hclosed⟩
    · rw [List.append_assoc, readAttributes_step hgap hname, hread]
      simp only [bind, Except.bind, hclose]
      rfl
    · rw [List.map_cons, List.map_cons, hkind, hlastKind]
      rfl
  | cons entry hown hne others ih =>
    rename_i ownGap entries text
    obtain ⟨fuel, rfl⟩ : ∃ n, fuel = n + 1 := ⟨fuel - 1, by simp at hfuel; omega⟩
    have hname := hnames entry List.mem_cons_self
    have hends : EndsAttribute (ownGap ++ (text ++ ')' :: rest)) := by
      cases ownGap with
      | nil => exact absurd rfl hne
      | cons c ownGap => exact ⟨c, rfl, .inl (hown c List.mem_cons_self)⟩
    have hsign : NoSign (text ++ ')' :: rest) := by
      obtain ⟨next, more, hm, heq⟩ := others.exists_name
      rw [heq, List.append_assoc]
      exact noSign_name (hnames next (List.mem_cons_of_mem _ hm)) _
    obtain ⟨token, ⟨place, _⟩, hread, hkind, rfl⟩ := readAttribute_written hname
      (hvalues entry List.mem_cons_self) hends (noSign_gap hown hsign) (p.after gap)
    obtain ⟨tokens, closed, hothers, hkinds, hclosed⟩ := ih
      (fun other hm => hnames other (List.mem_cons_of_mem _ hm))
      (fun other hm => hvalues other (List.mem_cons_of_mem _ hm)) hown place
      (Nat.lt_of_succ_lt_succ hfuel)
    refine ⟨token :: tokens, closed, ?_, ?_, hclosed⟩
    · rw [List.append_assoc, List.append_assoc, readAttributes_step hgap hname, hread]
      simp only [bind, Except.bind, hothers]
      rfl
    · rw [List.map_cons, hkind, hkinds]
      rfl

end Lexer

end PugLint
