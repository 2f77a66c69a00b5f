import PugLint.Proofs.Directive
import PugLint.Proofs.Token.Scanning

/-!
# Printed directives

A directive is printed with its name in full or with the sign of a shorthand in front, with its
argument and with a dot in front of each modifier. Reading takes the parts apart by three scans: the
name goes up to the first colon or dot, the argument up to the first dot that no bracket encloses,
and dots are what parts the modifiers. So a directive whose parts do not have these signs in them is
read back as it was printed. In the other direction all that is read is printed again, apart from a
colon with nothing behind it.

* `Bracketed`: texts that are read as one argument;
* `Directive.text`: a directive as it is printed;
* `Directive.parse?_eq_some_iff`, `Directive.parse?_eq_none_iff`: what is read of a name;
* `Directive.parse?_roundTrip`: reading and printing undo each other.
-/

namespace PugLint

/-- A text in which square brackets come in pairs, with dots only between two of them. The flag
    tells whether the text itself stands in brackets. -/
inductive Bracketed : Bool → List Char → Prop
  | nil (inside : Bool) : Bracketed inside []
  | char {inside : Bool} {c : Char} {text : List Char} : c ≠ '[' → c ≠ ']' →
    (c = '.' → inside = true) → Bracketed inside text → Bracketed inside (c :: text)
  | pair {inside : Bool} {inner text : List Char} : Bracketed true inner →
    Bracketed inside text → Bracketed inside ('[' :: (inner ++ ']' :: text))

namespace Directive

/-! ### Arguments -/

theorem splitArgument_char {depth : Nat} {c : Char} (hopening : c ≠ '[') (hclosing : c ≠ ']')
    (hdot : c = '.' → 0 < depth) (text : List Char) : splitArgument depth (c :: text) =
      (c :: (splitArgument depth text).1, (splitArgument depth text).2) := by
  have hstays : ¬(c == '.' && depth == 0) = true := by
    intro hends
    rw [Bool.and_eq_true, beq_iff_eq, beq_iff_eq] at hends
    exact Nat.lt_irrefl 0 (hends.2 ▸ hdot hends.1)
  simp [splitArgument, hstays, hopening, hclosing]

theorem splitArgument_opening (depth : Nat) (text : List Char) :
    splitArgument depth ('[' :: text) =
      ('[' :: (splitArgument (depth + 1) text).1, (splitArgument (depth + 1) text).2) :=
  rfl

theorem splitArgument_closing (depth : Nat) (text : List Char) :
    splitArgument (depth + 1) (']' :: text) =
      (']' :: (splitArgument depth text).1, (splitArgument depth text).2) :=
  rfl

/-- A text goes into an argument as a whole and leaves as many brackets open as it found. -/
theorem splitArgument_append {inside : Bool} {text : List Char} (h : Bracketed inside text)
    {depth : Nat} (hdepth : inside = true → 0 < depth) (rest : List Char) :
    splitArgument depth (text ++ rest) =
      (text ++ (splitArgument depth rest).1, (splitArgument depth rest).2) := by
  induction h generalizing depth rest with
  | nil => rfl
  | char hopening hclosing hdot _ ih =>
    rw [List.cons_append, splitArgument_char hopening hclosing fun heq => hdepth (hdot heq),
      ih hdepth, List.cons_append]
  | pair _ _ ihinner ihtext =>
    rw [List.cons_append, List.append_assoc, List.cons_append, splitArgument_opening,
      ihinner fun _ => Nat.succ_pos depth, splitArgument_closing, ihtext hdepth]
    simp only [List.cons_append, List.append_assoc]

theorem splitArgument_of_dot {rest : List Char} (h : ∀ c ∈ rest.head?, c = '.') :
    splitArgument 0 rest = ([], rest) := by
  rcases rest with _ | ⟨c, rest⟩
  · rfl
  · obtain rfl := h c rfl
    rfl

/-! ### Modifiers -/

/-- Modifiers as they are printed. -/
def modifierText (modifiers : List String) : List Char :=
  modifiers.flatMap fun modifier => '.' :: modifier.toList

theorem head?_modifierText (modifiers : List String) :
    ∀ c ∈ (modifierText modifiers).head?, c = '.' := by
  rcases modifiers with _ | ⟨modifier, modifiers⟩
  · exact nofun
  · rintro c ⟨⟩
    rfl

theorem splitDots_modifierText {piece : List Char} {modifiers : List String} (hpiece : '.' ∉ piece)
    (h : ∀ modifier ∈ modifiers, '.' ∉ modifier.toList) :
    splitDots (piece ++ modifierText modifiers) = piece :: modifiers.map String.toList := by
  induction modifiers generalizing piece with
  | nil =>
    obtain ⟨first, pieces, hsplit, happend⟩ := exists_splitDots_append hpiece []
    cases hsplit
    rw [modifierText, List.flatMap_nil, happend, List.append_nil, List.map_nil]
  | cons modifier modifiers ih =>
    obtain ⟨hmodifier, hmodifiers⟩ := List.forall_mem_cons.1 h
    obtain ⟨first, pieces, hsplit, happend⟩ :=
      exists_splitDots_append hpiece (modifierText (modifier :: modifiers))
    have hcons : splitDots (modifierText (modifier :: modifiers)) =
        [] :: modifier.toList :: modifiers.map String.toList :=
      congrArg ([] :: ·) (ih hmodifier hmodifiers)
    cases hsplit.symm.trans hcons
    rw [happend, List.append_nil, List.map_cons]

/-- Modifiers without dots are told apart. -/
theorem splitModifiers_modifierText {modifiers : List String}
    (h : ∀ modifier ∈ modifiers, '.' ∉ modifier.toList) :
    splitModifiers (modifierText modifiers) = modifiers := by
  rcases modifiers with _ | ⟨modifier, modifiers⟩
  · rfl
  · obtain ⟨hmodifier, hmodifiers⟩ := List.forall_mem_cons.1 h
    have hread : splitModifiers (modifierText (modifier :: modifiers)) =
        (modifier.toList :: modifiers.map String.toList).map String.ofList :=
      congrArg (List.map String.ofList) (splitDots_modifierText hmodifier hmodifiers)
    rw [hread, ← List.map_cons, List.map_map]
    exact List.map_id'' (fun _ => String.ofList_toList) _

theorem flatMap_splitDots (text : List Char) :
    ((splitDots text).flatMap fun piece => '.' :: piece) = '.' :: text := by
  induction text with
  | nil => rfl
  | cons c text ih =>
    rw [splitDots]
    split
    · rename_i hdot
      rw [List.flatMap_cons, ih, beq_iff_eq.1 hdot]
      rfl
    · cases hsplit : splitDots text with
      | nil =>
        rw [hsplit] at ih
        cases ih
      | cons piece pieces =>
        rw [hsplit, List.flatMap_cons, List.cons_append, List.cons.injEq] at ih
        dsimp only
        rw [List.flatMap_cons, List.cons_append, List.cons_append, ih.2]

/-- All that is read as modifiers is printed. -/
theorem modifierText_splitModifiers {text : List Char} (h : ∀ c ∈ text.head?, c = '.') :
    modifierText (splitModifiers text) = text := by
  rcases text with _ | ⟨c, text⟩
  · rfl
  · obtain rfl := h c rfl
    rw [splitModifiers, modifierText, List.flatMap_map]
    simpa only [String.toList_ofList] using flatMap_splitDots text

/-! ### Names in full and shorthands -/

/-- Whether a character goes on with a name in full. -/
abbrev isNameChar (c : Char) : Bool :=
  c != ':' && c != '.'

/-- A text that is the name of a directive. -/
structure IsName (name : List Char) : Prop where
  ne_nil : name ≠ []
  colon_notMem : ':' ∉ name
  dot_notMem : '.' ∉ name

/-- What is read of a name: one in full with a colon behind it, one in full without, or a
    shorthand. -/
inductive Reads (raw : String) : Directive → Prop
  | argument {name rest : List Char} : IsName name →
    raw.toList = 'v' :: '-' :: (name ++ ':' :: rest) →
    Reads raw (withArgument raw (String.ofList name) false rest)
  | bare {name rest : List Char} : IsName name →
    raw.toList = 'v' :: '-' :: (name ++ rest) → (∀ c ∈ rest.head?, c = '.') →
    Reads raw ⟨raw, String.ofList name, none, splitModifiers rest, false⟩
  | short {shorthand : Shorthand} {rest : List Char} : raw = shorthand.short rest →
    Reads raw (withArgument raw shorthand.word true rest)

/-- A name ends at the first colon or dot. -/
theorem IsName.takeWhile_append {name rest : List Char} (hname : IsName name)
    (hrest : ∀ c ∈ rest.head?, c = ':' ∨ c = '.') :
    (name ++ rest).takeWhile isNameChar = name ∧ (name ++ rest).dropWhile isNameChar = rest := by
  refine Lexer.takeWhile_append_stop (fun c hc => ?_) fun c hc => ?_
  · rw [Bool.and_eq_true, bne_iff_ne, bne_iff_ne]
    exact ⟨fun heq => hname.colon_notMem (heq ▸ hc), fun heq => hname.dot_notMem (heq ▸ hc)⟩
  · rcases hrest c hc with rfl | rfl <;> rfl

/-- What stands in front of the first colon or dot is a name, unless it is empty. -/
theorem isName_takeWhile {text : List Char} (h : text.takeWhile isNameChar ≠ []) :
    IsName (text.takeWhile isNameChar) where
  ne_nil := h
  colon_notMem hmem := absurd (List.mem_takeWhile_imp hmem) (by decide)
  dot_notMem hmem := absurd (List.mem_takeWhile_imp hmem) (by decide)

/-- What stands behind a name starts with a colon or a dot. -/
theorem head?_dropWhile_name (text : List Char) :
    ∀ c ∈ (text.dropWhile isNameChar).head?, c = ':' ∨ c = '.' := by
  intro c hc
  have hstop := List.head?_dropWhile_not isNameChar text
  rw [hc] at hstop
  simpa [Bool.and_eq_true, or_iff_not_imp_left] using hstop

theorem Reads.parse?_eq {raw : String} {directive : Directive} (h : Reads raw directive) :
    parse? raw = some directive := by
  cases h with
  | @argument name rest hname hraw =>
    obtain ⟨htake, hdrop⟩ := hname.takeWhile_append fun c (hc : c ∈ (':' :: rest).head?) =>
      .inl (Option.some.inj hc).symm
    simp only [parse?, hraw, htake, hdrop, List.isEmpty_eq_false_iff.2 hname.ne_nil,
      Bool.false_eq_true, if_false]
  | @bare name rest hname hraw hrest =>
    obtain ⟨htake, hdrop⟩ := hname.takeWhile_append fun c hc => .inr (hrest c hc)
    simp only [parse?, hraw, htake, hdrop, List.isEmpty_eq_false_iff.2 hname.ne_nil,
      Bool.false_eq_true, if_false]
    rcases rest with _ | ⟨c, rest⟩
    · rfl
    · obtain rfl := hrest c rfl
      rfl
  | short hraw => rw [hraw, Shorthand.parse?_short]

theorem parse?_eq_some_iff {raw : String} {directive : Directive} :
    parse? raw = some directive ↔ Reads raw directive := by
  refine ⟨fun h => ?_, Reads.parse?_eq⟩
  have hshort (shorthand : Shorthand) {rest : List Char}
      (hraw : raw.toList = shorthand.sign :: rest) : raw = shorthand.short rest := by
    rw [← String.toList_inj, Shorthand.toList_short, hraw]
  unfold parse? at h
  split at h
  · rename_i rest hraw
    dsimp only at h
    split at h
    · cases h
    · rename_i hname
      have hname := isName_takeWhile (mt List.isEmpty_iff.2 hname)
      rw [← List.takeWhile_append_dropWhile (p := isNameChar) (l := rest)] at hraw
      split at h
      · rename_i behind hbehind
        cases h
        rw [hbehind] at hraw
        exact .argument hname hraw
      · rename_i hbehind
        cases h
        refine .bare hname hraw fun c hc => (head?_dropWhile_name rest c hc).resolve_left ?_
        rintro rfl
        obtain ⟨behind, hcolon⟩ := List.head?_eq_some_iff.1 hc
        exact hbehind behind hcolon
  · rename_i rest hraw
    cases h
    exact .short (hshort .bind hraw)
  · rename_i rest hraw
    cases h
    exact .short (hshort .on hraw)
  · rename_i rest hraw
    cases h
    exact .short (hshort .slot hraw)
  · cases h

/-- A name is empty if a colon, a dot or nothing stands in its place. -/
theorem takeWhile_name_eq_nil_iff {text : List Char} :
    text.takeWhile isNameChar = [] ↔ text = [] ∨ [':'] <+: text ∨ ['.'] <+: text := by
  constructor
  · intro hname
    have hstop := head?_dropWhile_name text
    rw [← List.nil_append (List.dropWhile _ _), ← hname, List.takeWhile_append_dropWhile] at hstop
    rcases text with _ | ⟨c, text⟩
    · exact .inl rfl
    · rcases hstop c rfl with rfl | rfl
      · exact .inr (.inl ⟨text, rfl⟩)
      · exact .inr (.inr ⟨text, rfl⟩)
  · rintro (rfl | ⟨text, rfl⟩ | ⟨text, rfl⟩) <;> rfl

/-- A name is no directive if nothing that opens one is in front of it, or if it lacks a name. -/
theorem parse?_eq_none_iff {raw : String} : parse? raw = none ↔
    (∀ opening ∈ ["v-", ":", "@", "#"], ¬opening.toList <+: raw.toList) ∨
      raw = "v-" ∨ "v-:".toList <+: raw.toList ∨ "v-.".toList <+: raw.toList := by
  rw [← String.toList_inj]
  unfold parse?
  split
  · rename_i rest hraw
    rw [hraw]
    dsimp only
    split
    · rename_i hname
      rw [List.isEmpty_iff, takeWhile_name_eq_nil_iff] at hname
      refine iff_of_true rfl (.inr ?_)
      simpa using hname
    · rename_i hname
      rw [List.isEmpty_iff, takeWhile_name_eq_nil_iff] at hname
      refine iff_of_false (by split <;> exact nofun) ?_
      simpa using hname
  · rename_i rest hraw
    simp [hraw]
  · rename_i rest hraw
    simp [hraw]
  · rename_i rest hraw
    simp [hraw]
  · rename_i hlong hbind hon hslot
    refine iff_of_true rfl (.inl ?_)
    simp only [List.forall_mem_cons]
    exact ⟨fun ⟨rest, h⟩ => hlong rest h.symm, fun ⟨rest, h⟩ => hbind rest h.symm,
      fun ⟨rest, h⟩ => hon rest h.symm, fun ⟨rest, h⟩ => hslot rest h.symm, nofun⟩

/-! ### Printing -/

/-- What is printed in front of the argument: the sign of a shorthand, or the name in full and a
    colon if there is an argument. -/
def front (directive : Directive) : List Char :=
  match [Shorthand.bind, .on, .slot].find? fun shorthand =>
      directive.shorthand && shorthand.word == directive.name with
  | some shorthand => [shorthand.sign]
  | none =>
    'v' :: '-' :: (directive.name.toList ++ if directive.argument.isSome then [':'] else [])

/-- What is printed behind the name. -/
def behind (directive : Directive) : List Char :=
  directive.argument.elim [] String.toList ++ modifierText directive.modifiers

/-- A directive as it is printed. -/
def text (directive : Directive) : String :=
  String.ofList (directive.front ++ directive.behind)

/-- A directive of which no part has signs that end it. Shorthands are there for three names. -/
structure Printable (directive : Directive) : Prop where
  isName : IsName directive.name.toList
  exists_word_eq : directive.shorthand = true →
    ∃ shorthand : Shorthand, directive.name = shorthand.word
  bracketed : ∀ argument ∈ directive.argument,
    argument ≠ "" ∧ Bracketed false argument.toList
  dot_notMem : ∀ modifier ∈ directive.modifiers, '.' ∉ modifier.toList

/-- A name in full with a colon and no argument behind it, which is printed without the colon. -/
structure DropsColon (raw : String) (directive : Directive) : Prop where
  shorthand_eq : directive.shorthand = false
  argument_eq : directive.argument = none
  exists_colon : ∃ rest, raw.toList = 'v' :: '-' :: (directive.name.toList ++ ':' :: rest) ∧
    directive.text.toList = 'v' :: '-' :: (directive.name.toList ++ rest)

theorem front_of_shorthand {directive : Directive} (hshort : directive.shorthand = true)
    {shorthand : Shorthand} (hname : directive.name = shorthand.word) :
    directive.front = [shorthand.sign] := by
  rw [front, hshort, hname]
  cases shorthand <;> rfl

theorem front_of_not_shorthand {directive : Directive} (hshort : directive.shorthand = false) :
    directive.front =
      'v' :: '-' :: (directive.name.toList ++ if directive.argument.isSome then [':'] else []) := by
  rw [front, hshort]
  rfl

/-- What is printed behind the name is read as the same argument and modifiers. -/
theorem Printable.withArgument_behind {directive : Directive} (h : directive.Printable)
    (raw name : String) (isShort : Bool) : withArgument raw name isShort directive.behind =
      ⟨raw, name, directive.argument, directive.modifiers, isShort⟩ := by
  have hdot := splitArgument_of_dot (head?_modifierText directive.modifiers)
  have hmodifiers := splitModifiers_modifierText h.dot_notMem
  cases hargument : directive.argument with
  | none => simp [withArgument, behind, hargument, hdot, hmodifiers]
  | some argument =>
    obtain ⟨hne, hbracketed⟩ := h.bracketed argument hargument
    have hsplit : splitArgument 0 (argument.toList ++ modifierText directive.modifiers) = _ :=
      splitArgument_append hbracketed (fun heq => absurd heq Bool.false_ne_true) _
    simp [withArgument, behind, hargument, hsplit, hdot, hmodifiers, hne]

/-- All that is read behind a name is printed again. -/
theorem behind_withArgument (raw name : String) (isShort : Bool) (rest : List Char) :
    (withArgument raw name isShort rest).behind = rest := by
  have happend := append_splitArgument 0 rest
  have hmodifiers := modifierText_splitModifiers (head?_splitArgument 0 rest)
  cases hargument : (splitArgument 0 rest).1 with
  | nil =>
    rw [hargument, List.nil_append] at happend
    rw [happend] at hmodifiers
    simp [behind, withArgument, hargument, happend, hmodifiers]
  | cons c argument =>
    rw [hargument] at happend
    simpa [behind, withArgument, hargument, hmodifiers] using happend

/-- A printed directive is read. -/
theorem Printable.reads {directive : Directive} (h : directive.Printable) :
    Reads directive.text { directive with raw := directive.text } := by
  cases hshort : directive.shorthand with
  | true =>
    obtain ⟨shorthand, hname⟩ := h.exists_word_eq hshort
    have htext : directive.text = shorthand.short directive.behind := by
      rw [text, front_of_shorthand hshort hname]
      rfl
    have hreads := Reads.short htext
    rwa [h.withArgument_behind, ← hname] at hreads
  | false =>
    cases hargument : directive.argument with
    | none =>
      have htext : directive.text.toList =
          'v' :: '-' :: (directive.name.toList ++ modifierText directive.modifiers) := by
        simp [text, front_of_not_shorthand hshort, behind, hargument]
      have hreads := Reads.bare h.isName htext (head?_modifierText _)
      rwa [String.ofList_toList, splitModifiers_modifierText h.dot_notMem] at hreads
    | some argument =>
      have htext : directive.text.toList =
          'v' :: '-' :: (directive.name.toList ++ ':' :: directive.behind) := by
        simp [text, front_of_not_shorthand hshort, hargument]
      have hreads := Reads.argument h.isName htext
      rwa [String.ofList_toList, h.withArgument_behind, hargument] at hreads

/-- What is read is printed as it was, or without a colon that has no argument behind it. -/
theorem Reads.text_eq {raw : String} {directive : Directive} (h : Reads raw directive) :
    directive.text = raw ∨ DropsColon raw directive := by
  cases h with
  | @argument name rest hname hraw =>
    cases hargument : (withArgument raw (String.ofList name) false rest).argument with
    | none =>
      refine .inr ⟨rfl, hargument, rest, ?_, ?_⟩
      · rw [hraw, withArgument, String.toList_ofList]
      · rw [text, front_of_not_shorthand rfl, behind_withArgument, hargument]
        simp
    | some argument =>
      refine .inl (String.toList_inj.1 ?_)
      rw [hraw, text, front_of_not_shorthand rfl, behind_withArgument, hargument]
      simp [withArgument]
  | @bare name rest hname hraw hrest =>
    refine .inl (String.toList_inj.1 ?_)
    rw [hraw]
    simp [text, front_of_not_shorthand, behind, modifierText_splitModifiers hrest]
  | @short shorthand rest hraw =>
    refine .inl ?_
    rw [text, front_of_shorthand rfl rfl, behind_withArgument, hraw]
    rfl

/-- A directive without signs in its parts that end them is read as it was printed, whether a
    shorthand is used or not, and all that is read as a directive is printed as it was, apart from
    a colon with no argument behind it. Nothing is read exactly if a name starts as no directive
    does or has nothing behind `v-`. -/
theorem parse?_roundTrip :
    (∀ directive : Directive, directive.Printable →
      parse? directive.text = some { directive with raw := directive.text }) ∧
    (∀ raw directive, parse? raw = some directive →
      directive.raw = raw ∧ (directive.text = raw ∨ DropsColon raw directive)) ∧
    ∀ raw, parse? raw = none ↔
      (∀ opening ∈ ["v-", ":", "@", "#"], ¬opening.toList <+: raw.toList) ∨
        raw = "v-" ∨ "v-:".toList <+: raw.toList ∨ "v-.".toList <+: raw.toList := by
  refine ⟨fun directive h => h.reads.parse?_eq, fun raw directive h => ?_,
    fun raw => parse?_eq_none_iff⟩
  have hreads := parse?_eq_some_iff.1 h
  refine ⟨?_, hreads.text_eq⟩
  cases hreads <;> rfl

/-- A dot in brackets starts no modifier, and a dot at the end starts an empty one. A colon goes if
    a modifier stands behind it. -/
theorem parse?_roundTrip_listener :
    let listener : Directive := ⟨"", "on", some "[e.n]", ["stop", ""], true⟩
    let bare : Directive := ⟨"v-on:.stop", "on", none, ["stop"], false⟩
    listener.Printable ∧ listener.text = "@[e.n].stop." ∧
      parse? "@[e.n].stop." = some { listener with raw := "@[e.n].stop." } ∧
      parse? "v-on:.stop" = some bare ∧ bare.text = "v-on.stop" ∧ DropsColon "v-on:.stop" bare := by
  have hbracketed : Bracketed false "[e.n]".toList :=
    .pair (.char (by decide) (by decide) (by decide) <| .char (by decide) (by decide) (by decide) <|
      .char (by decide) (by decide) (by decide) <| .nil true) (.nil false)
  have hlistener : Printable ⟨"", "on", some "[e.n]", ["stop", ""], true⟩ := {
    isName := ⟨by decide, by decide, by decide⟩
    exists_word_eq := fun _ => ⟨.on, rfl⟩
    bracketed := by
      rintro argument ⟨⟩
      exact ⟨by decide, hbracketed⟩
    dot_notMem := by decide }
  have htext : text ⟨"", "on", some "[e.n]", ["stop", ""], true⟩ = "@[e.n].stop." := by decide
  refine ⟨hlistener, htext, ?_, by decide, by decide, ?_⟩
  · rw [← htext]
    exact parse?_roundTrip.1 _ hlistener
  · exact (parse?_roundTrip.2.1 "v-on:.stop" _ (by decide)).2.resolve_left (by decide)

end Directive

end PugLint
