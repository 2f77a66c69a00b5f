import PugLint.Proofs.Token.Acceptance

/-!
# What moves see of the text ahead

A move sees little of the text behind its piece: the end of a line, the character that ends a
name, a sign, the indentation of the next line. So a text may change behind a path without the
path changing, if what stands in front of the change keeps it out of sight: an opening
parenthesis, or a blank in front of a word.

* `Lexer.Agree`: two texts are the same up to such a character;
* `Lexer.Varies`: two texts that may stand behind a path;
* `Lexer.Move.vary`, `Lexer.Path.vary`: a move, and a path, in front of either;
* `Lexer.Path.exchange`: what stands behind a path is exchanged.
-/

namespace PugLint

namespace Lexer

/-! ### Lines -/

theorem isLine_nil_iff {rest : List Char} : IsLine [] rest ↔ isLineEnd rest = true := by
  refine ⟨IsLine.isLineEnd, fun hend => ?_⟩
  cases rest with
  | nil => rfl
  | cons c rest => rw [IsLine, List.nil_append, splitLine, if_pos hend]

theorem isLine_cons_iff {c : Char} {line rest : List Char} :
    IsLine (c :: line) rest ↔ isLineEnd (c :: (line ++ rest)) = false ∧ IsLine line rest := by
  simp only [IsLine, List.cons_append]
  cases hend : isLineEnd (c :: (line ++ rest)) with
  | true =>
    rw [splitLine, if_pos hend]
    exact ⟨fun h => absurd (congrArg Prod.fst h).symm (List.cons_ne_nil c line),
      fun h => Bool.noConfusion h.1⟩
  | false =>
    rw [splitLine_cons hend, Prod.ext_iff, Prod.ext_iff, List.cons.injEq]
    exact ⟨fun h => ⟨rfl, h.1.2, h.2⟩, fun h => ⟨⟨rfl, h.2.1⟩, h.2.2⟩⟩

/-- A line ends in the same place in front of a text that ends lines alike. -/
theorem IsLine.congr {line rest rest' : List Char} (hline : IsLine line rest)
    (h : ∀ front, Lexer.isLineEnd (front ++ rest') = Lexer.isLineEnd (front ++ rest)) :
    IsLine line rest' := by
  induction line with
  | nil =>
    rw [isLine_nil_iff] at hline ⊢
    exact (h []).trans hline
  | cons c line ih =>
    rw [isLine_cons_iff] at hline ⊢
    exact ⟨(h (c :: line)).trans hline.1, ih hline.2⟩

/-! ### Tag names -/

/-- The characters that a tag name may hold but not end with. -/
def isJoint (c : Char) : Bool :=
  c == ':' || c == '-'

theorem isTagChar_of_isJoint {c : Char} (h : isJoint c = true) : isTagChar c = true := by
  simp only [isJoint, Bool.or_eq_true, beq_iff_eq] at h
  rcases h with rfl | rfl <;> rfl

/-- A tag name, and what stands behind it: joints, if any, and then no tag character. -/
structure TagAt (name rest : List Char) : Prop where
  /-- The characters of the name. -/
  chars : ∀ c ∈ name, isTagChar c = true
  /-- The last one. -/
  last : ∀ c ∈ name.getLast?, isJoint c = false
  /-- What stands behind it. -/
  behind : ∀ c ∈ (rest.dropWhile isJoint).head?, isTagChar c = false

/-- The joints at the end of a run are no part of the name. -/
theorem scanTag_of_takeWhile {cs name joints : List Char}
    (hrun : cs.takeWhile isTagChar = name ++ joints) (hjoints : ∀ c ∈ joints, isJoint c = true)
    (hlast : ∀ c ∈ name.getLast?, isJoint c = false) :
    scanTag cs = (name, joints ++ cs.dropWhile isTagChar) := by
  have hending : (name ++ joints).reverse.takeWhile isJoint = joints.reverse := by
    rw [List.reverse_append]
    refine (takeWhile_append_stop (fun c hc => hjoints c (List.mem_reverse.1 hc)) fun c hc => ?_).1
    rw [List.head?_reverse] at hc
    exact hlast c hc
  have hscan : scanTag cs = ((name ++ joints).take ((name ++ joints).length -
      ((name ++ joints).reverse.takeWhile isJoint).reverse.length),
      ((name ++ joints).reverse.takeWhile isJoint).reverse ++ cs.dropWhile isTagChar) := by
    rw [← hrun]
    rfl
  rw [hscan, hending, List.reverse_reverse, List.length_append, Nat.add_sub_cancel, List.take_left]

theorem TagAt.scanTag {name rest : List Char} (h : TagAt name rest) :
    scanTag (name ++ rest) = (name, rest) := by
  have hjoints : ∀ c ∈ rest.takeWhile isJoint, isJoint c = true :=
    fun c hc => List.mem_takeWhile_imp hc
  -- Behind the name the tag characters are the joints.
  have hbehind := takeWhile_append_stop (fun c hc => isTagChar_of_isJoint (hjoints c hc)) h.behind
  rw [List.takeWhile_append_dropWhile] at hbehind
  have hrun : (name ++ rest).takeWhile isTagChar = name ++ rest.takeWhile isJoint := by
    rw [List.takeWhile_append_of_pos h.chars, hbehind.1]
  rw [scanTag_of_takeWhile hrun hjoints h.last, List.dropWhile_append_of_pos h.chars, hbehind.2,
    List.takeWhile_append_dropWhile]

/-- A run is what stands in front of the joints at its end, and these. -/
theorem exists_append_joints (run : List Char) :
    ∃ front joints, run = front ++ joints ∧ (∀ c ∈ joints, isJoint c = true) ∧
      ∀ c ∈ front.getLast?, isJoint c = false := by
  refine ⟨(run.reverse.dropWhile isJoint).reverse, (run.reverse.takeWhile isJoint).reverse,
    ?_, ?_, ?_⟩
  · rw [← List.reverse_append, List.takeWhile_append_dropWhile, List.reverse_reverse]
  · exact fun c hc => List.mem_takeWhile_imp (List.mem_reverse.1 hc)
  · rw [List.getLast?_reverse]
    exact head?_dropWhile_eq_false _ _

theorem tagAt_of_scanTag {name rest : List Char} (h : scanTag (name ++ rest) = (name, rest)) :
    TagAt name rest := by
  obtain ⟨front, joints, hrun, hjoints, hlast⟩ :=
    exists_append_joints ((name ++ rest).takeWhile isTagChar)
  rw [scanTag_of_takeWhile hrun hjoints hlast] at h
  obtain ⟨rfl, hrest⟩ := Prod.mk.inj h
  refine ⟨fun c hc => ?_, hlast, ?_⟩
  · have hmem : c ∈ (front ++ rest).takeWhile isTagChar := hrun ▸ List.mem_append_left _ hc
    exact List.mem_takeWhile_imp hmem
  · have hhead := head?_dropWhile_eq_false isTagChar (front ++ rest)
    have hdrop : rest.dropWhile isJoint = (front ++ rest).dropWhile isTagChar := by
      conv => lhs; rw [← hrest]
      refine (takeWhile_append_stop hjoints fun c hc => ?_).2
      rw [Bool.eq_false_iff]
      intro hjoint
      have htag := isTagChar_of_isJoint hjoint
      rw [hhead c hc] at htag
      cases htag
    rwa [hdrop]

/-! ### Keywords -/

/-- The words that start a line of their own. -/
def isKeyword (word : List Char) : Bool :=
  String.ofList word == "doctype" || (Keyword.ofWord? (String.ofList word)).isSome

/-- A text starts with a line of its own: a keyword, and behind it the end of the line or a
    blank. -/
def StartsKeyword (text : List Char) : Prop :=
  (isLineEnd (text.dropWhile Char.isLower) = true ∨
    (text.dropWhile Char.isLower).head? = some ' ') ∧
    isKeyword (text.takeWhile Char.isLower) = true

theorem isSome_keywordLine? (line : List Char) :
    (keywordLine? line).isSome =
      (((line.dropWhile Char.isLower).isEmpty ||
        (line.dropWhile Char.isLower).head? == some ' ') &&
          isKeyword (line.takeWhile Char.isLower)) := by
  unfold keywordLine? isKeyword
  dsimp only
  split
  · rename_i hbehind
    rw [hbehind, Bool.true_and]
    split
    · rename_i hword
      rw [hword]
      rfl
    · rename_i hword
      rw [Option.isSome_map, Bool.eq_false_iff.2 hword, Bool.false_or]
  · rename_i hbehind
    rw [Bool.eq_false_iff.2 hbehind, Bool.false_and]
    rfl

theorem keywordLine?_splitLine (text : List Char) :
    keywordLine? (splitLine text).1 = none ↔ ¬StartsKeyword text := by
  have hlower : ∀ c ∈ text.takeWhile Char.isLower, c.isLower = true :=
    fun c hc => List.mem_takeWhile_imp hc
  have hsplit := splitLine_append_of_ne (fun c hc => ne_break_of_isLower (hlower c hc))
    (text.dropWhile Char.isLower)
  rw [List.takeWhile_append_dropWhile] at hsplit
  have hhead := head?_dropWhile_eq_false Char.isLower text
  rw [StartsKeyword, hsplit]
  generalize text.takeWhile Char.isLower = word at hlower
  generalize text.dropWhile Char.isLower = behind at hhead
  -- The line behind the word is empty at the end of the line, and else starts as the text does.
  have hline : ((splitLine behind).1.isEmpty = true ↔ isLineEnd behind = true) ∧
      ((splitLine behind).1.head? = some ' ' ↔ behind.head? = some ' ') ∧
      ∀ c ∈ (splitLine behind).1.head?, c.isLower = false := by
    cases hend : isLineEnd behind with
    | true =>
      have hnil : splitLine behind = ([], behind) := isLine_nil_iff.2 hend
      rw [hnil]
      refine ⟨iff_of_true rfl rfl, iff_of_false nofun ?_, nofun⟩
      rcases eq_of_isLineEnd hend with rfl | ⟨ds, rfl⟩ | ⟨ds, rfl⟩ <;> nofun
    | false =>
      rcases behind with _ | ⟨c, cs⟩
      · cases hend
      · rw [splitLine_cons hend]
        exact ⟨iff_of_false nofun nofun, Iff.rfl, hhead⟩
  obtain ⟨htake, hdrop⟩ := takeWhile_append_stop hlower hline.2.2
  rw [← Option.not_isSome_iff_eq_none, isSome_keywordLine?]
  dsimp only
  rw [htake, hdrop, Bool.and_eq_true, Bool.or_eq_true, beq_iff_eq, hline.1, hline.2.1]

/-! ### Texts that agree -/

/-- A text starts with a word. -/
def StartsWord (text : List Char) : Prop :=
  ∃ c cs, text = c :: cs ∧ (c.isAlphanum || c == '_') = true

/-- A character that hides what stands behind it. -/
def isBarrier (b : Char) : Bool :=
  b == '(' || isInlineBlank b || b == '\n'

/-- Two texts are the same up to a character, behind which words start in both unless it opens
    a list of attributes. -/
def Agree (text text' : List Char) : Prop :=
  ∃ front b rest rest', text = front ++ b :: rest ∧ text' = front ++ b :: rest' ∧
    isBarrier b = true ∧ (b = '(' ∨ StartsWord rest ∧ StartsWord rest')

theorem StartsWord.marked {text : List Char} (h : StartsWord text) : Marked text := by
  obtain ⟨c, cs, rfl, hc⟩ := h
  refine ⟨isLineEnd_cons_of_isAlphanum hc cs, ?_⟩
  rintro d ⟨⟩
  rw [Bool.eq_false_iff]
  intro hblank
  simp only [isInlineBlank, Bool.or_eq_true, beq_iff_eq] at hblank
  rcases hblank with rfl | rfl <;> exact absurd hc (by decide)

theorem StartsWord.ne_nil {text : List Char} (h : StartsWord text) : text ≠ [] := by
  obtain ⟨c, cs, rfl, -⟩ := h
  exact List.cons_ne_nil c cs

theorem StartsWord.startsAttribute {text : List Char} (h : StartsWord text) :
    StartsAttribute text := by
  obtain ⟨c, cs, rfl, hc⟩ := h
  have hne (d : Char) (hd : (d.isAlphanum || d == '_') = false) : c ≠ d := by
    rintro rfl
    rw [hc] at hd
    cases hd
  refine ⟨List.cons_ne_nil c cs, ?_, ?_⟩
  · rintro d ⟨⟩
    refine ⟨?_, hne ')' rfl, hne '=' rfl⟩
    simp only [isSeparator, Text.isAsciiBlank, Bool.or_eq_false_iff, beq_eq_false_iff_ne]
    exact ⟨⟨⟨⟨⟨hne ' ' rfl, hne '\t' rfl⟩, hne '\n' rfl⟩, hne '\x0c' rfl⟩, hne '\r' rfl⟩,
      hne ',' rfl⟩
  · rintro ⟨ds, hds⟩
    exact hne '!' rfl (List.cons.inj hds).1.symm

namespace Agree

variable {text text' : List Char}

theorem prepend (h : Agree text text') (front : List Char) :
    Agree (front ++ text) (front ++ text') := by
  obtain ⟨middle, b, rest, rest', rfl, rfl, hb⟩ := h
  exact ⟨front ++ middle, b, rest, rest', (List.append_assoc ..).symm,
    (List.append_assoc ..).symm, hb⟩

theorem ne_nil (h : Agree text text') : text ≠ [] := by
  obtain ⟨front, b, rest, rest', rfl, -⟩ := h
  exact List.append_ne_nil_of_right_ne_nil _ (List.cons_ne_nil b rest)

theorem head?_eq (h : Agree text text') : text'.head? = text.head? := by
  obtain ⟨front, b, rest, rest', rfl, rfl, -⟩ := h
  cases front <;> rfl

/-- Characters that are no barriers are passed over alike. -/
theorem dropWhile (h : Agree text text') {p : Char → Bool}
    (hp : ∀ b, isBarrier b = true → p b = false) :
    text'.takeWhile p = text.takeWhile p ∧ Agree (text.dropWhile p) (text'.dropWhile p) := by
  obtain ⟨front, b, rest, rest', rfl, rfl, hb, hrest⟩ := h
  have hpb : ¬p b = true := by simp [hp b hb]
  induction front with
  | nil =>
    simp only [List.nil_append, List.takeWhile_cons_of_neg hpb, List.dropWhile_cons_of_neg hpb]
    exact ⟨trivial, [], b, rest, rest', rfl, rfl, hb, hrest⟩
  | cons c front ih =>
    simp only [List.cons_append]
    by_cases hc : p c = true
    · simp only [List.takeWhile_cons_of_pos hc, List.dropWhile_cons_of_pos hc]
      exact ⟨congrArg _ ih.1, ih.2⟩
    · simp only [List.takeWhile_cons_of_neg hc, List.dropWhile_cons_of_neg hc]
      exact ⟨trivial, c :: front, b, rest, rest', rfl, rfl, hb, hrest⟩

/-- Without barriers, the start of one text is that of the other. -/
theorem isPrefix (h : Agree text text') {marker : List Char}
    (hmarker : marker.any isBarrier = false) (hmarked : marker <+: text') :
    marker <+: text := by
  obtain ⟨front, b, rest, rest', rfl, rfl, hb, -⟩ := h
  induction marker generalizing front with
  | nil => exact List.nil_prefix
  | cons c marker ih =>
    obtain ⟨hc, hmarker⟩ := Bool.or_eq_false_iff.1 hmarker
    rcases front with _ | ⟨d, front⟩
    · obtain ⟨rfl, -⟩ := List.cons_prefix_cons.1 hmarked
      rw [hb] at hc
      cases hc
    · obtain ⟨rfl, hmore⟩ := List.cons_prefix_cons.1 hmarked
      exact List.cons_prefix_cons.2 ⟨rfl, ih hmarker front hmore⟩

/-- The end of a line is seen within two characters, and a carriage return is no barrier. -/
theorem isLineEnd_eq (h : Agree text text') : isLineEnd text' = isLineEnd text := by
  have htwo (c d : Char) (cs cs' : List Char) :
      isLineEnd (c :: d :: cs') = isLineEnd (c :: d :: cs) := by
    unfold isLineEnd
    split <;> simp_all
  obtain ⟨front, b, rest, rest', rfl, rfl, hb, -⟩ := h
  rcases front with _ | ⟨c, _ | ⟨d, front⟩⟩
  · simp only [isBarrier, isInlineBlank, Bool.or_eq_true, beq_iff_eq] at hb
    rcases hb with (rfl | rfl | rfl) | rfl <;> rfl
  · exact htwo c b rest rest'
  · exact htwo c d _ _

theorem isLine (h : Agree text text') {line : List Char} (hline : IsLine line text) :
    IsLine line text' :=
  hline.congr fun front => (h.prepend front).isLineEnd_eq

theorem tagAt (h : Agree text text') {name : List Char} (hname : TagAt name text) :
    TagAt name text' := by
  refine { hname with behind := ?_ }
  have hagree := (h.dropWhile fun b hb => ?_ : _ ∧ Agree (text.dropWhile isJoint) _).2
  · rw [hagree.head?_eq]
    exact hname.behind
  · simp only [isBarrier, isInlineBlank, Bool.or_eq_true, beq_iff_eq] at hb
    rcases hb with (rfl | rfl | rfl) | rfl <;> rfl

theorem startsElement (h : Agree text text') (hstarts : StartsElement text) :
    StartsElement text' where
  ne_nil := by
    intro hnil
    have hhead := h.head?_eq
    rw [hnil, List.head?_nil, eq_comm, List.head?_eq_none_iff] at hhead
    exact h.ne_nil hhead
  head := by
    rw [h.head?_eq]
    exact hstarts.head
  comment hmarked := hstarts.comment (h.isPrefix (by decide) hmarked)
  code hmarked := hstarts.code (h.isPrefix (by decide) hmarked)
  word := by
    have hword := hstarts.word
    rw [keywordLine?_splitLine, StartsKeyword] at hword ⊢
    have hdrop := h.dropWhile (p := Char.isLower) fun b hb => by
      simp only [isBarrier, isInlineBlank, Bool.or_eq_true, beq_iff_eq] at hb
      rcases hb with (rfl | rfl | rfl) | rfl <;> rfl
    rwa [hdrop.1, hdrop.2.head?_eq, hdrop.2.isLineEnd_eq]

/-- In a list of attributes, texts that agree are alike. -/
theorem alike (h : Agree text text') : Alike text text' := by
  obtain ⟨front, b, rest, rest', rfl, rfl, hb, rfl | ⟨hrest, hrest'⟩⟩ := h
  · have hopens (rest : List Char) : StartsAttribute ('(' :: rest) :=
      ⟨List.cons_ne_nil _ _, by rintro c ⟨⟩; decide, by rintro ⟨_, ⟨⟩⟩⟩
    exact ⟨front, _, _, rfl, rfl, hopens rest, hopens rest'⟩
  · refine ⟨front ++ [b], rest, rest', ?_, ?_, hrest.startsAttribute, hrest'.startsAttribute⟩ <;>
      rw [List.append_assoc, List.singleton_append]

end Agree

/-! ### The next line -/

/-- Two texts that may stand behind the indentation of a line. -/
def AgreeAtContent (content content' : List Char) : Prop :=
  Agree content content' ∨ StartsWord content ∧ StartsWord content'

theorem AgreeAtContent.ne_nil {content content' : List Char} (h : AgreeAtContent content content') :
    content ≠ [] ∧ content' ≠ [] := by
  rcases h with h | ⟨h, h'⟩
  · refine ⟨h.ne_nil, fun hnil => h.ne_nil ?_⟩
    rw [← List.head?_eq_none_iff, ← h.head?_eq, hnil]
    rfl
  · exact ⟨h.ne_nil, h'.ne_nil⟩

theorem AgreeAtContent.marked {content content' : List Char} (h : AgreeAtContent content content')
    (hmarked : Marked content) : Marked content' := by
  rcases h with h | ⟨-, h'⟩
  · rw [Marked, h.isLineEnd_eq, h.head?_eq]
    exact hmarked
  · exact h'.marked

/-- Blanks and line breaks. -/
def isGap (c : Char) : Bool :=
  isInlineBlank c || c == '\n' || c == '\r'

theorem SkippedLines.isGap {lines : List Char} (h : SkippedLines lines) :
    ∀ c ∈ lines, Lexer.isGap c = true := by
  induction h with
  | nil => exact List.forall_mem_nil _
  | cons hblanks hending _ ih =>
    refine List.forall_mem_append.2 ⟨fun c hc => ?_, List.forall_mem_append.2 ⟨?_, ih⟩⟩
    · rw [Lexer.isGap, hblanks c hc]
      rfl
    · rcases hending with rfl | rfl <;> exact List.all_eq_true.1 rfl

theorem Ahead.isGap {lines indentation content : List Char} (h : Ahead lines indentation content) :
    ∀ c ∈ lines ++ indentation, Lexer.isGap c = true := by
  refine List.forall_mem_append.2 ⟨h.lines.isGap, fun c hc => ?_⟩
  rw [Lexer.isGap, h.blank c hc]
  rfl

/-- Texts that agree differ behind the gap that they start with. -/
theorem Agree.exists_content {gap content rest' : List Char}
    (hgap : ∀ c ∈ gap, isGap c = true) (h : Agree (gap ++ content) rest') :
    ∃ content', rest' = gap ++ content' ∧ AgreeAtContent content content' := by
  obtain ⟨front, b, rest, behind', htext, rfl, hb, hrest⟩ := h
  rcases List.append_eq_append_iff.1 htext with ⟨more, rfl, rfl⟩ | ⟨more, rfl, hmore⟩
  · exact ⟨more ++ b :: behind', List.append_assoc ..,
      .inl ⟨more, b, rest, behind', rfl, rfl, hb, hrest⟩⟩
  · rcases more with _ | ⟨c, more⟩
    · rw [List.nil_append] at hmore
      subst hmore
      rw [List.append_nil]
      exact ⟨b :: behind', rfl, .inl ⟨[], b, rest, behind', rfl, rfl, hb, hrest⟩⟩
    · obtain ⟨rfl, rfl⟩ := List.cons.inj hmore
      -- The gap reaches over the barrier, which is then no parenthesis.
      have hopen : b ≠ '(' := by
        rintro rfl
        exact absurd (hgap '(' (List.mem_append_right _ List.mem_cons_self)) (by decide)
      obtain ⟨⟨c, cs, hcs, hc⟩, hrest'⟩ := hrest.resolve_left hopen
      rcases more with _ | ⟨d, more⟩
      · refine ⟨behind', by rw [List.append_assoc]; rfl, .inr ⟨⟨c, cs, ?_, hc⟩, hrest'⟩⟩
        exact hcs
      · have hd := hgap d (by simp)
        obtain ⟨rfl, -⟩ := List.cons.inj hcs
        simp only [isGap, isInlineBlank, Bool.or_eq_true, beq_iff_eq] at hd
        rcases hd with ((rfl | rfl) | rfl) | rfl <;> exact absurd hc (by decide)

theorem Ahead.exists_content {lines indentation content rest' : List Char}
    (h : Ahead lines indentation content)
    (hagree : Agree (lines ++ (indentation ++ content)) rest') :
    ∃ content', rest' = lines ++ (indentation ++ content') ∧ AgreeAtContent content content' := by
  rw [← List.append_assoc] at hagree
  obtain ⟨content', rfl, hcontent⟩ := hagree.exists_content h.isGap
  exact ⟨content', List.append_assoc .., hcontent⟩

theorem Ahead.congr {lines indentation content content' : List Char}
    (h : Ahead lines indentation content) (hagree : AgreeAtContent content content') :
    Ahead lines indentation content' :=
  { h with marked := .inr (hagree.marked (h.marked.resolve_left hagree.ne_nil.1)) }

theorem SkippedLines.getLast?_eq {lines : List Char} (h : SkippedLines lines) (hne : lines ≠ []) :
    lines.getLast? = some '\n' := by
  induction h with
  | nil => exact absurd rfl hne
  | @cons blanks ending more _ hending _ ih =>
    rw [List.getLast?_append, List.getLast?_append]
    rcases more with _ | ⟨c, more⟩
    · rcases hending with rfl | rfl <;> rfl
    · rw [ih (List.cons_ne_nil c more)]
      rfl

/-- A change behind the indentation of a line is out of sight in front of the line. -/
theorem Ahead.agree {lines indentation content content' : List Char}
    (h : Ahead lines indentation content) (hne : lines ≠ [])
    (hagree : AgreeAtContent content content') :
    Agree (lines ++ (indentation ++ content)) (lines ++ (indentation ++ content')) := by
  rw [← List.append_assoc, ← List.append_assoc]
  rcases hagree with hagree | hwords
  · exact hagree.prepend _
  · obtain ⟨front, b, hfront, hb⟩ : ∃ front b, lines ++ indentation = front ++ [b] ∧
        isBarrier b = true := by
      rcases List.eq_nil_or_concat indentation with rfl | ⟨front, b, rfl⟩
      · obtain ⟨front, hfront⟩ := List.getLast?_eq_some_iff.1 (h.lines.getLast?_eq hne)
        exact ⟨front, '\n', by rw [List.append_nil, hfront], rfl⟩
      · refine ⟨lines ++ front, b, by simp, ?_⟩
        simp [isBarrier, h.blank b (by simp)]
    rw [hfront, List.append_assoc, List.append_assoc]
    exact ⟨front, b, content, content', rfl, rfl, hb, .inr hwords⟩

/-! ### Moves and paths -/

/-- Two texts that may stand for each other where the reading stands at a stage. -/
def Varies : Stage → List Char → List Char → Prop
  | .start, _, _ => True
  | .content, text, text' => AgreeAtContent text text'
  | .list, text, text' => Alike text text'
  | _, text, text' => Agree text text'

theorem run_of_dropWhile {p : Char → Bool} {run rest : List Char}
    (h : (run ++ rest).dropWhile p = rest) :
    (∀ c ∈ run, p c = true) ∧ ∀ c ∈ rest.head?, p c = false := by
  have htake : (run ++ rest).takeWhile p = run := by
    have happend : (run ++ rest).takeWhile p ++ (run ++ rest).dropWhile p = run ++ rest :=
      List.takeWhile_append_dropWhile
    rw [h] at happend
    exact List.append_cancel_right happend
  have hhead := head?_dropWhile_eq_false p (run ++ rest)
  rw [h] at hhead
  refine ⟨fun c hc => ?_, hhead⟩
  rw [← htake] at hc
  exact List.mem_takeWhile_imp hc

/-- What is passed over in front of the first line does not depend on the line. -/
theorem rest_firstContent_congr {skipped rest rest' : List Char}
    (h : (firstContent (skipped ++ rest)).rest = rest) (hagree : AgreeAtContent rest rest') :
    (firstContent (skipped ++ rest')).rest = rest' := by
  have hmark (cs : List Char) : (firstContent ('\ufeff' :: cs)).rest = cs.dropWhile isInlineBlank :=
    rfl
  have hplain {cs : List Char} (hcs : cs.head? ≠ some '\ufeff') :
      (firstContent cs).rest = cs.dropWhile isInlineBlank := by
    unfold firstContent
    split
    · exact absurd rfl hcs
    · rfl
  have hblank (hrest : ∀ c ∈ rest.head?, isInlineBlank c = false) :
      ∀ c ∈ rest'.head?, isInlineBlank c = false := by
    rcases hagree with hagree | ⟨-, hword⟩
    · rwa [hagree.head?_eq]
    · exact hword.marked.2
  by_cases hhead : (skipped ++ rest).head? = some '\ufeff'
  · rcases skipped with _ | ⟨c, skipped⟩
    -- The mark would be passed over.
    · obtain ⟨cs, rfl⟩ := List.head?_eq_some_iff.1 hhead
      rw [List.nil_append, hmark] at h
      have hle := (List.dropWhile_suffix isInlineBlank (l := cs)).length_le
      rw [h] at hle
      exact absurd hle (Nat.not_succ_le_self _)
    · obtain rfl : c = '\ufeff' := Option.some.inj hhead
      rw [List.cons_append, hmark] at h ⊢
      obtain ⟨hskipped, hrest⟩ := run_of_dropWhile h
      exact (takeWhile_append_stop hskipped (hblank hrest)).2
  · rw [hplain hhead] at h
    obtain ⟨hskipped, hrest⟩ := run_of_dropWhile h
    rw [hplain]
    · exact (takeWhile_append_stop hskipped (hblank hrest)).2
    · rcases skipped with _ | ⟨c, skipped⟩
      · rcases hagree with hagree | ⟨-, c, cs, rfl, hc⟩
        · rwa [List.nil_append, hagree.head?_eq]
        · rintro ⟨⟩
          exact absurd hc (by decide)
      · exact hhead

/-- A move does not depend on what is out of its sight. -/
theorem Move.vary {s t : State} {piece : Piece} {rest rest' : List Char}
    (h : Move s piece rest t) (hv : Varies t.stage rest rest') :
    Move s piece rest' t ∧ Varies s.stage (piece.text ++ rest) (piece.text ++ rest') := by
  cases h with
  | @start skipped _ h =>
    refine ⟨?_, trivial⟩
    have hagree : AgreeAtContent rest rest' := by
      split at hv
      · exact .inl hv
      · exact hv
    have hend : isLineEnd rest' = isLineEnd rest := by
      rcases hagree with hagree | ⟨hword, hword'⟩
      · exact hagree.isLineEnd_eq
      · rw [hword.marked.1, hword'.marked.1]
    rw [← hend]
    exact .start (rest_firstContent_congr h hagree)
  | bar hbar hline => exact ⟨.bar hbar (hv.isLine hline), .inl (hv.prepend _)⟩
  | whole h hline => exact ⟨.whole h (hv.isLine hline), .inl (hv.prepend _)⟩
  | call hne hname hrest =>
    exact ⟨.call hne hname (by rwa [hv.head?_eq]), .inl (hv.prepend _)⟩
  | element h => exact ⟨.element (hv.startsElement h), .inl (hv.prepend _)⟩
  | ended h => exact ⟨.ended (hv.isLineEnd_eq.trans h), hv.prepend _⟩
  | tag hc h =>
    exact ⟨.tag hc (hv.tagAt (tagAt_of_scanTag h)).scanTag, hv.prepend _⟩
  | literal hc hne hname hrest =>
    exact ⟨.literal hc hne hname (by rwa [hv.head?_eq]), hv.prepend _⟩
  | dot hblanks hrest => exact ⟨.dot hblanks (hv.isLineEnd_eq.trans hrest), hv.prepend _⟩
  | opens => exact ⟨.opens, [], '(', rest, rest', rfl, rfl, rfl, .inl rfl⟩
  | spread h => exact ⟨.spread h, hv.prepend _⟩
  | colon hne hblanks hrest =>
    exact ⟨.colon hne hblanks (by rwa [hv.head?_eq]), hv.prepend _⟩
  | slash h => exact ⟨.slash (hv.isLineEnd_eq.trans h), hv.prepend _⟩
  | code h hline => exact ⟨.code h (hv.isLine hline), hv.prepend _⟩
  | trailing hc hline h => exact ⟨.trailing hc (hv.isLine hline) h, hv.prepend _⟩
  | text hc hline h => exact ⟨.text hc (hv.isLine hline) h, hv.prepend _⟩
  | interpolation h hline => exact ⟨.interpolation h (hv.isLine hline), hv.prepend _⟩
  | @listed _ separators written _ kind hseparators hwritten h hrest =>
    have hat := h.attributeAt
    refine ⟨.listed hseparators ?_ (hat.congr hv).readsAttribute hv.ne_nil.2, hv.prepend _⟩
    obtain ⟨c, cs, rfl⟩ := List.exists_cons_of_ne_nil hat.ne_nil
    exact hwritten
  | closes hseparators => exact ⟨.closes hseparators, (hv.prepend _).alike⟩
  | next h hne hcontent hdeeper hindents =>
    refine ⟨.next (h.congr hv) hne hv.ne_nil.2 hdeeper hindents, ?_⟩
    have hagree := h.agree hne hv
    simpa [Varies, Piece.text] using hagree
  | raw h hne hcontent hdeeper =>
    have hcontent' : AgreeAtContent rest rest' := .inl hv
    exact ⟨.raw (h.congr hcontent') hne hcontent'.ne_nil.2 hdeeper, hv.prepend _⟩
  | finish => exact absurd rfl hv.ne_nil
  | rawText hline => exact ⟨.rawText (hv.isLine hline), hv.prepend _⟩
  | @rawNext _ base lines indentation content h hne hcontent hdeeper =>
    have hgap : ∀ c ∈ indentation.drop (min indentation.length base), isGap c = true :=
      fun c hc => h.isGap c (List.mem_append_right _ (List.mem_of_mem_drop hc))
    have hprepend := hv.prepend
      (⟨lines, [.newline], indentation.take (min indentation.length base), []⟩ : Piece).text
    obtain ⟨content', rfl, hcontent'⟩ := hv.exists_content hgap
    exact ⟨.rawNext (h.congr hcontent') hne hcontent'.ne_nil.2 hdeeper, hprepend⟩
  | rawClose h hdeeper =>
    have hprepend := hv.prepend (Piece.token .endRawText []).text
    obtain ⟨content', rfl, hcontent'⟩ := h.exists_content hv
    exact ⟨.rawClose (h.congr hcontent') (.inr (hdeeper.resolve_left hcontent'.ne_nil.1)), hprepend⟩

/-- A path does not depend on what is out of sight behind it. -/
theorem Path.vary {s t : State} {pieces : List Piece} {rest rest' : List Char}
    (h : Path s pieces rest t) (hv : Varies t.stage rest rest') :
    Path s pieces rest' t ∧ Varies s.stage (textOf pieces ++ rest) (textOf pieces ++ rest') := by
  induction h with
  | nil => exact ⟨.nil, hv⟩
  | cons hmove _ ih =>
    obtain ⟨hpath, hvaries⟩ := ih hv
    obtain ⟨hmove', hvaries'⟩ := hmove.vary hvaries
    refine ⟨.cons hmove' hpath, ?_⟩
    rwa [textOf_cons, List.append_assoc, List.append_assoc]

/-- A path in two parts. -/
theorem Path.exists_append {s u : State} {pieces others : List Piece} {rest : List Char}
    (h : Path s (pieces ++ others) rest u) :
    ∃ t, Path s pieces (textOf others ++ rest) t ∧ Path t others rest u := by
  induction pieces generalizing s with
  | nil => exact ⟨s, .nil, h⟩
  | cons piece pieces ih =>
    rw [List.cons_append] at h
    cases h with
    | cons hmove hpath =>
      obtain ⟨t, hfront, hback⟩ := ih hpath
      rw [textOf_append, List.append_assoc] at hmove
      exact ⟨t, .cons hmove hfront, hback⟩

/-- What stands behind a path is exchanged for a path from the same state. -/
theorem Path.exchange {s t u : State} {front back back' : List Piece} {rest : List Char}
    (hfront : Path s front (textOf back ++ rest) t) (hback : Path t back' rest u)
    (hv : Varies t.stage (textOf back ++ rest) (textOf back' ++ rest)) :
    Path s (front ++ back') rest u :=
  (hfront.vary hv).1.append hback

end Lexer

end PugLint
