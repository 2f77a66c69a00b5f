import PugLint.Proofs.Expression
import PugLint.Proofs.Text.Search
import PugLint.Registry

/-!
# Spellings of directives

Three directives have a shorthand: `:` for `v-bind:`, `@` for `v-on:` and `#` for `v-slot:`. A
name in a shorthand and the same name in full are read as the same directive. The functions
that look at names as they are written mostly agree on the two as well; where they do not, the
statements say what has to hold.

* `Directive.append_splitArgument`, `Directive.exists_splitDots_append`: arguments and modifiers are
  cut from the text behind a name;
* `Shorthand.short`, `Shorthand.full`: the two spellings of a name;
* `Shorthand.parse?_short`, `Shorthand.parse?_full`: both are the same directive;
* `Shorthand.Closed`: lists with both spellings of each binding;
* `Shorthand.attributeKey?_full`, `Shorthand.checkedName?_full`, `Shorthand.listener_alike`: the
  names that rules compare.
-/

namespace PugLint

namespace Directive

/-! ### Arguments and modifiers -/

/-- What is cut off as the argument stands at the front. -/
theorem append_splitArgument (depth : Nat) (text : List Char) :
    (splitArgument depth text).1 ++ (splitArgument depth text).2 = text := by
  induction text generalizing depth with
  | nil => rfl
  | cons c text ih =>
    rw [splitArgument]
    split
    · rfl
    · exact congrArg (c :: ·) (ih _)

/-- What is left behind an argument starts with a dot. -/
theorem head?_splitArgument (depth : Nat) (text : List Char) :
    ∀ c ∈ (splitArgument depth text).2.head?, c = '.' := by
  fun_induction splitArgument depth text with
  | case1 => simp
  | case2 depth c cs hdot =>
    rw [Bool.and_eq_true, beq_iff_eq] at hdot
    rintro d ⟨⟩
    exact hdot.1
  | case3 depth c cs _ depth' argument rest hsplit ih =>
    rwa [hsplit] at ih

/-- An argument and what is left behind it are the text that it was read from. -/
theorem append_of_argument {raw word argument : String} {isShort : Bool}
    {rest : List Char} (h : (withArgument raw word isShort rest).argument = some argument) :
    rest = argument.toList ++ (splitArgument 0 rest).2 := by
  simp only [withArgument] at h
  split at h
  · cases h
  · cases h
    rw [String.toList_ofList, append_splitArgument]

/-- A text of pieces between dots goes on with its first piece in front of it. -/
theorem exists_splitDots_append {front : List Char} (h : '.' ∉ front) (text : List Char) :
    ∃ piece pieces, splitDots text = piece :: pieces ∧
      splitDots (front ++ text) = (front ++ piece) :: pieces := by
  induction front with
  | nil =>
    cases hsplit : splitDots text with
    | nil =>
      unfold splitDots at hsplit
      split at hsplit
      · cases hsplit
      · split at hsplit
        · cases hsplit
        · split at hsplit <;> cases hsplit
    | cons piece pieces => exact ⟨piece, pieces, rfl, hsplit⟩
  | cons c front ih =>
    obtain ⟨piece, pieces, hsplit, happend⟩ := ih fun hm => h (List.mem_cons_of_mem _ hm)
    have hc : (c == '.') = false := by
      rw [beq_eq_false_iff_ne]
      rintro rfl
      exact h List.mem_cons_self
    exact ⟨piece, pieces, hsplit, by simp [splitDots, hc, happend]⟩

end Directive

/-- The directives that have a shorthand. -/
inductive Shorthand where
  /-- Bindings. -/
  | bind
  /-- Listeners. -/
  | on
  /-- Slots. -/
  | slot
  deriving DecidableEq, Repr

namespace Shorthand

/-- The sign in front of a name in a shorthand. -/
def sign : Shorthand → Char
  | bind => ':'
  | on => '@'
  | slot => '#'

/-- The name of the directive. -/
def word : Shorthand → String
  | bind => "bind"
  | on => "on"
  | slot => "slot"

/-- What stands in front of a name in full. -/
def opening : Shorthand → List Char
  | bind => ['v', '-', 'b', 'i', 'n', 'd', ':']
  | on => ['v', '-', 'o', 'n', ':']
  | slot => ['v', '-', 's', 'l', 'o', 't', ':']

/-- A name in a shorthand. -/
def short (shorthand : Shorthand) (rest : List Char) : String :=
  String.ofList (shorthand.sign :: rest)

/-- The same name in full. -/
def full (shorthand : Shorthand) (rest : List Char) : String :=
  String.ofList (shorthand.opening ++ rest)

/-- By how many bytes a name in full is longer. -/
def growth : Shorthand → Nat
  | bind | slot => 6
  | on => 4

variable (shorthand : Shorthand) (rest : List Char)

@[simp]
theorem toList_short : (shorthand.short rest).toList = shorthand.sign :: rest :=
  String.toList_ofList

@[simp]
theorem toList_full : (shorthand.full rest).toList = shorthand.opening ++ rest :=
  String.toList_ofList

theorem utf8ByteSize_short_pos : 0 < (shorthand.short rest).utf8ByteSize := by
  rw [Text.utf8ByteSize_eq, toList_short, Text.byteLength_cons]
  have := shorthand.sign.utf8Size_pos
  omega

theorem utf8ByteSize_full :
    (shorthand.full rest).utf8ByteSize =
      (shorthand.short rest).utf8ByteSize + shorthand.growth := by
  rw [Text.utf8ByteSize_eq, Text.utf8ByteSize_eq, toList_short, toList_full,
    Text.byteLength_append, Text.byteLength_cons]
  have hopening : Text.byteLength shorthand.opening =
      shorthand.sign.utf8Size + shorthand.growth := by
    cases shorthand <;> rfl
  omega

theorem short_ne_full : shorthand.short rest ≠ shorthand.full rest := by
  intro h
  have hsize := shorthand.utf8ByteSize_full rest
  rw [← h] at hsize
  cases shorthand <;> simp [growth] at hsize

variable {shorthand rest} in
/-- A name in a shorthand is one in one way only. -/
theorem short_inj {shorthand' : Shorthand} {rest' : List Char}
    (h : shorthand.short rest = shorthand'.short rest') :
    shorthand = shorthand' ∧ rest = rest' := by
  rw [← String.toList_inj, toList_short, toList_short, List.cons.injEq] at h
  refine ⟨?_, h.2⟩
  cases shorthand <;> cases shorthand' <;> first | rfl | exact absurd h.1 (by decide)

/-! ### Directives -/

theorem parse?_short : Directive.parse? (shorthand.short rest) =
    some (.withArgument (shorthand.short rest) shorthand.word true rest) := by
  rw [Directive.parse?, toList_short]
  cases shorthand <;> rfl

theorem parse?_full : Directive.parse? (shorthand.full rest) =
    some (.withArgument (shorthand.full rest) shorthand.word false rest) := by
  rw [Directive.parse?, toList_full]
  cases shorthand <;> rfl

/-! ### Listed names -/

/-- Names of which each binding is listed in both spellings, and no other directive with a
    shorthand in any. -/
def Closed (names : List String) : Prop :=
  ∀ shorthand rest, names.contains (short shorthand rest) = names.contains (full shorthand rest)

theorem closed_nil : Closed [] :=
  fun _ _ => rfl

/-- A binding is added in both spellings. -/
theorem Closed.binding {names : List String} (h : Closed names) (name : List Char) :
    Closed (short bind name :: full bind name :: names) := by
  intro shorthand rest
  have hshort : (short shorthand rest == short bind name) =
      (full shorthand rest == full bind name) := by
    rw [Bool.eq_iff_iff, beq_iff_eq, beq_iff_eq, ← String.toList_inj, ← String.toList_inj]
    cases shorthand <;> simp [sign, opening]
  have hfull : (short shorthand rest == full bind name) = false := by
    rw [beq_eq_false_iff_ne, Ne, ← String.toList_inj]
    cases shorthand <;> simp [sign, opening]
  have hfull' : (full shorthand rest == short bind name) = false := by
    rw [beq_eq_false_iff_ne, Ne, ← String.toList_inj]
    cases shorthand <;> simp [sign, opening]
  simp only [List.contains_cons, hshort, hfull, hfull', h shorthand rest, Bool.false_or]

/-- A plain name is added. -/
theorem Closed.plain {names : List String} (h : Closed names) {name : String}
    (hname : Directive.parse? name = none) : Closed (name :: names) := by
  intro shorthand rest
  have hshort : (short shorthand rest == name) = false := by
    rw [beq_eq_false_iff_ne]
    rintro rfl
    rw [parse?_short] at hname
    cases hname
  have hfull : (full shorthand rest == name) = false := by
    rw [beq_eq_false_iff_ne]
    rintro rfl
    rw [parse?_full] at hname
    cases hname
  simp only [List.contains_cons, hshort, hfull, h shorthand rest]

theorem closed_boundKeyNames : Closed Rule.boundKeyNames :=
  closed_nil.binding ['k', 'e', 'y']

theorem closed_keyNames : Closed Rule.keyNames :=
  closed_boundKeyNames.plain (by decide)

theorem closed_boundIs : Closed [":is", "v-bind:is"] :=
  closed_nil.binding ['i', 's']

theorem closed_is : Closed ["is", ":is", "v-bind:is"] :=
  closed_boundIs.plain (by decide)

/-! ### Compared names -/

/-- Bindings have the same key in both spellings, and listeners have none. -/
theorem attributeKey?_full (h : shorthand ≠ slot) :
    Rule.attributeKey? (shorthand.full rest) = Rule.attributeKey? (shorthand.short rest) := by
  rw [Rule.attributeKey?, Rule.attributeKey?, toList_short, toList_full]
  cases shorthand with
  | bind => rfl
  | on => rfl
  | slot => exact absurd rfl h

/-- The key of a slot is its name as written. -/
theorem attributeKey?_short_slot :
    Rule.attributeKey? (slot.short rest) = some (slot.short rest, false) := by
  rw [Rule.attributeKey?, toList_short]
  rfl

theorem attributeKey?_full_slot :
    Rule.attributeKey? (slot.full rest) = some (slot.full rest, false) := by
  rw [Rule.attributeKey?, toList_full]
  rfl

/-- A static argument stands in what is written behind the sign. -/
theorem isSome_splitBefore?_argument {raw : String} {argument : String} {isShort : Bool}
    (front : List Char)
    (h : (Directive.withArgument raw shorthand.word isShort rest).staticArgument? =
      some argument) : (Text.splitBefore? argument.toList (front ++ rest)).isSome = true := by
  refine Text.isSome_splitBefore?_append front ?_
  obtain ⟨h, -⟩ := Option.filter_eq_some_iff.1 h
  simp only [Directive.withArgument] at h
  split at h
  · cases h
  · cases h
    rw [String.toList_ofList,
      Text.splitBefore?_of_isPrefix ⟨_, Directive.append_splitArgument 0 rest⟩]
    rfl

/-- Of the directives with a shorthand, bindings alone are checked for their names. -/
theorem map_checkedName? {raw : String} {isShort : Bool} (front : List Char)
    (hraw : raw.toList = front ++ rest)
    (hparse : Directive.parse? raw = some (.withArgument raw shorthand.word isShort rest)) :
    (Rule.checkedName? raw).map Prod.fst =
      if shorthand = bind then
        (Directive.withArgument raw shorthand.word isShort rest).staticArgument?
      else none := by
  have his : (Directive.withArgument raw shorthand.word isShort rest).is "bind" =
      decide (shorthand = bind) := by
    cases shorthand <;> rfl
  rw [Rule.checkedName?, hparse, hraw]
  simp only [his, decide_eq_true_eq]
  split
  · cases h : (Directive.withArgument raw shorthand.word isShort rest).staticArgument? with
    | none => rfl
    | some argument =>
      obtain ⟨found, hfound⟩ :=
        Option.isSome_iff_exists.1 (isSome_splitBefore?_argument shorthand rest front h)
      simp [hfound]
  · rfl

/-- The name that is checked is the same one, wherever it starts. -/
theorem checkedName?_full :
    (Rule.checkedName? (shorthand.full rest)).map Prod.fst =
      (Rule.checkedName? (shorthand.short rest)).map Prod.fst := by
  rw [map_checkedName? shorthand rest shorthand.opening (toList_full _ _) (parse?_full _ _),
    map_checkedName? shorthand rest [shorthand.sign] (toList_short shorthand rest)
      (parse?_short _ _)]
  rfl

/-! ### Listeners -/

theorem dot_notMem_opening : '.' ∉ shorthand.opening := by
  cases shorthand <;> decide

theorem dot_notMem_sign : '.' ∉ [shorthand.sign] := by
  cases shorthand <;> decide

/-- Whether a listener is on the root element shows behind the sign. -/
theorem isNone_native_full :
    (Text.splitBefore? ".native".toList (shorthand.full rest).toList).isNone =
      (Text.splitBefore? ".native".toList (shorthand.short rest).toList).isNone := by
  have hbehind {front : List Char} (hfront : '.' ∉ front) :
      (Text.splitBefore? ".native".toList (front ++ rest)).isNone =
        (Text.splitBefore? ".native".toList rest).isNone := by
    have hplain : Text.splitBefore? ".native".toList (front ++ rest) =
        Text.behind front (Text.splitBefore? ".native".toList rest) :=
      Text.splitBefore?_plain hfront rest
    rw [hplain, Text.behind, Option.isNone_map]
  rw [toList_full, toList_short, hbehind shorthand.dot_notMem_opening]
  exact (hbehind shorthand.dot_notMem_sign).symm

end Shorthand

namespace Rule.Listener

/-- Two listeners answer to the same event with the same system modifiers. -/
structure Alike (listener listener' : Listener) : Prop where
  token_eq : listener'.token = listener.token
  event_eq : listener'.event = listener.event
  isExact_eq : listener'.isExact = listener.isExact
  hasSystemModifier_eq : listener'.hasSystemModifier = listener.hasSystemModifier
  systemText_eq : listener'.systemText = listener.systemText

theorem Alike.refl (listener : Listener) : Alike listener listener :=
  ⟨rfl, rfl, rfl, rfl, rfl⟩

/-- Modifiers in front of which another text stands, which is none that rules know. -/
theorem alike_of_front {token : Nat} {event first first' : String} {others : List String}
    (h : first ≠ "exact" ∧ systemModifiers.contains first = false)
    (h' : first' ≠ "exact" ∧ systemModifiers.contains first' = false) :
    Alike ⟨token, event, first :: others⟩ ⟨token, event, first' :: others⟩ where
  token_eq := rfl
  event_eq := rfl
  isExact_eq := by
    simp only [isExact, List.contains_cons]
    rw [beq_false_of_ne h.1.symm, beq_false_of_ne h'.1.symm]
  hasSystemModifier_eq := by
    simp only [hasSystemModifier, List.any_cons, h.2, h'.2]
  systemText_eq := by
    simp only [systemText, joined, List.filter_cons, h.2, h'.2, Bool.false_eq_true, if_false]

end Rule.Listener

namespace Shorthand

variable (shorthand : Shorthand) (rest : List Char)

/-- The text of a listener, which other directives do not have. -/
theorem unprefixed?_short :
    Rule.Listener.unprefixed? (shorthand.short rest).toList =
      if shorthand = on then some rest else none := by
  rw [toList_short]
  cases shorthand <;> rfl

theorem unprefixed?_full :
    Rule.Listener.unprefixed? (shorthand.full rest).toList =
      if shorthand = on then some rest else none := by
  rw [toList_full]
  cases shorthand <;> rfl

/-- Whether a text starts with a word. -/
def startsWithWord (text : List Char) : Bool :=
  text.head?.any Text.isWordChar

/-- The modifiers of a listener stand behind the word that it starts with. -/
theorem modifierText_of_word (raw : List Char) (h : startsWithWord rest = true) :
    Rule.Listener.modifierText raw rest = Rule.Listener.modifierText [] rest := by
  rcases rest with _ | ⟨c, rest⟩
  · cases h
  · have hc : Text.isWordChar c = true := h
    simp only [Rule.Listener.modifierText, List.takeWhile_cons_of_pos hc]
    split <;> simp_all

/-- Without a word, all that is written counts as modifiers. -/
theorem modifierText_of_not_word (raw : List Char) (h : startsWithWord rest = false) :
    Rule.Listener.modifierText raw rest = raw := by
  rcases rest with _ | ⟨c, rest⟩
  · rfl
  · have hc : ¬Text.isWordChar c = true := by simpa [startsWithWord] using h
    simp only [Rule.Listener.modifierText, List.takeWhile_cons_of_neg hc]

/-- The listener of a name, with what is written and what stands behind the sign. -/
def listener (token : Nat) (written : String) : Rule.Listener where
  token := token
  event := String.ofList (rest.takeWhile (· != '.'))
  modifiers :=
    (Directive.splitDots (Rule.Listener.modifierText written.toList rest)).map String.ofList

theorem parse?_short_on (token : Nat) :
    Rule.Listener.parse? token (on.short rest) = some (listener rest token (on.short rest)) := by
  rw [Rule.Listener.parse?, unprefixed?_short, if_pos rfl, Option.map_some]
  rfl

theorem parse?_full_on (token : Nat) :
    Rule.Listener.parse? token (on.full rest) = some (listener rest token (on.full rest)) := by
  rw [Rule.Listener.parse?, unprefixed?_full, if_pos rfl, Option.map_some]
  rfl

theorem listener_eq_of_word (token : Nat) (written written' : String)
    (h : startsWithWord rest = true) :
    listener rest token written' = listener rest token written := by
  rw [listener, listener, modifierText_of_word rest written.toList h,
    modifierText_of_word rest written'.toList h]

/-- Without a word in front, the first modifier is what is written, which no rule knows. -/
theorem listener_alike (token : Nat) :
    (listener rest token (on.short rest)).Alike (listener rest token (on.full rest)) := by
  cases hword : startsWithWord rest with
  | true =>
    rw [listener_eq_of_word rest token (on.short rest) (on.full rest) hword]
    exact .refl _
  | false =>
    obtain ⟨piece, pieces, hsplit, hshort⟩ :=
      Directive.exists_splitDots_append on.dot_notMem_sign rest
    obtain ⟨piece', pieces', hsplit', hfull⟩ :=
      Directive.exists_splitDots_append on.dot_notMem_opening rest
    obtain ⟨rfl, rfl⟩ := List.cons.inj (hsplit.symm.trans hsplit')
    rw [listener, listener, modifierText_of_not_word rest _ hword,
      modifierText_of_not_word rest _ hword, toList_short, toList_full, ← List.singleton_append,
      hshort, hfull, List.map_cons, List.map_cons]
    refine Rule.Listener.alike_of_front ?_ ?_
    · simp [Rule.systemModifiers, ← String.toList_inj, sign]
    · simp [Rule.systemModifiers, ← String.toList_inj, opening]

end Shorthand

end PugLint
