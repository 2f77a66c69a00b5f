import PugLint.Proofs.Binding
import PugLint.Proofs.Expression.Iteration

/-!
# What patterns bind in a `v-for`

The aliases of a `v-for` are the identifiers of its left side, which is not read as patterns. They
are the names that the patterns there bind, as they are in a script, if no property is bound under a
key that is a name, and no name takes the rest: such a key is taken for an alias, and a name behind
the dots of the rest for the name of a member.

* `Binding.Pattern.isPlain`: the patterns in which there is neither;
* `Binding.Lists`: the identifiers of a text over its tokens;
* `Binding.parse?_of_isPlain`: the aliases are the names that the patterns bind.
-/

namespace PugLint.Binding

open Expression Text

/-! ### Plain patterns -/

/-- Whether a key is a name. -/
def Key.isName : Key → Bool
  | .name _ => true
  | _ => false

/-- Whether a pattern is a name. -/
def Pattern.isName : Pattern → Bool
  | .name _ => true
  | _ => false

mutual

/-- Whether no key in a pattern is a name, and no name takes the rest. -/
def Pattern.isPlain : Pattern → Bool
  | .name _ => true
  | .object properties => properties.isPlain
  | .array items => items.isPlain

/-- Whether no key in some properties is a name, and no name takes the rest. -/
def Properties.isPlain : Properties → Bool
  | .nil => true
  | .rest _ => false
  | .shorthand _ more => more.isPlain
  | .keyed key pattern more => !key.isName && pattern.isPlain && more.isPlain

/-- Whether no key in some items is a name, and no name takes the rest. -/
def Items.isPlain : Items → Bool
  | .nil => true
  | .rest pattern => !pattern.isName && pattern.isPlain
  | .cons pattern more => pattern.isPlain && more.isPlain

end

/-! ### Characters -/

theorem of_isSpace {c : Char} (h : Script.isSpace c = true) :
    isQuote c = false ∧ isIdentifierChar c = false ∧ c ≠ '.' := by
  refine ⟨Bool.eq_false_iff.2 fun hquote => ?_,
    isIdentifierChar_of_blank (isBlank_of_isSpace h), ?_⟩
  · simp only [isQuote, Bool.or_eq_true, beq_iff_eq] at hquote
    rcases hquote with (rfl | rfl) | rfl <;> exact absurd h (by decide)
  · rintro rfl
    exact absurd h (by decide)

/-- A character that is neither part of an identifier nor of a string is passed over. -/
theorem occurrencesFrom_cons {afterDot : Bool} {c : Char} {cs : List Char}
    (hquote : isQuote c = false) (hstart : isIdentifierStart c = false) :
    occurrencesFrom afterDot (c :: cs) =
      occurrencesFrom (if isBlank c then afterDot else c == '.') cs := by
  rw [occurrencesFrom, if_neg (Bool.eq_false_iff.1 hquote), if_neg (Bool.eq_false_iff.1 hstart)]
  split <;> rfl

/-- The blanks between tokens are passed over. One of them takes away the dot in front of it. -/
theorem exists_occurrencesFrom_dropWhile (afterDot : Bool) (text : List Char) :
    ∃ afterDot', (afterDot = false → afterDot' = false) ∧
      occurrencesFrom afterDot text =
        occurrencesFrom afterDot' (text.dropWhile Script.isSpace) := by
  induction text generalizing afterDot with
  | nil => exact ⟨afterDot, id, rfl⟩
  | cons c cs ih =>
    by_cases hspace : Script.isSpace c = true
    · obtain ⟨hquote, hchar, hdot⟩ := of_isSpace hspace
      obtain ⟨afterDot', himp, heq⟩ := ih (if isBlank c then afterDot else c == '.')
      rw [List.dropWhile_cons_of_pos hspace,
        occurrencesFrom_cons hquote (not_isIdentifierStart hchar)]
      refine ⟨afterDot', fun h => himp ?_, heq⟩
      split
      · exact h
      · exact beq_false_of_ne hdot
    · rw [List.dropWhile_cons_of_neg hspace]
      exact ⟨afterDot, id, rfl⟩

/-! ### Identifiers of tokens -/

/-- The identifiers of a text of tokens are some names, and those of a text of some more tokens. -/
def Lists (afterDot : Bool) (tokens more : List Token) (names : List (List Char)) : Prop :=
  ∀ text, isSpaced tokens text = true → ∃ rest, isSpaced more rest = true ∧
    (occurrencesFrom afterDot text).map Occurrence.name =
      names ++ (occurrencesFrom false rest).map Occurrence.name

section Tokens

variable {afterDot : Bool} {tokens more last : List Token} {names names' : List (List Char)}

theorem Lists.append (h : Lists afterDot tokens more names) (h' : Lists false more last names') :
    Lists afterDot tokens last (names ++ names') := by
  intro text htext
  obtain ⟨rest, hrest, hnames⟩ := h text htext
  obtain ⟨rest', hrest', hnames'⟩ := h' rest hrest
  exact ⟨rest', hrest', by rw [hnames, hnames', List.append_assoc]⟩

/-- No identifier goes on where a token starts, unless a name does. -/
theorem head?_any_isIdentifierChar {text : List Char} (h : isSpaced tokens text = true)
    (hword : Script.continuesName text = false) : text.head?.any isIdentifierChar = false := by
  cases text with
  | nil => rfl
  | cons c cs =>
    by_cases hspace : Script.isSpace c = true
    · exact (of_isSpace hspace).2.1
    cases tokens with
    | nil => exact absurd (List.all_eq_true.1 h c List.mem_cons_self) hspace
    | cons token tokens =>
      obtain ⟨rest, htext, -, -⟩ := isSpaced_cons.1 h
      obtain ⟨d, ds, hd, hstarts⟩ := token.exists_text_eq
      rw [List.dropWhile_cons_of_neg hspace, hd] at htext
      obtain ⟨rfl, -⟩ := List.cons.inj htext
      have hcontinue : isNameContinue c = false := (Bool.or_eq_false_iff.1 hword).1
      change isIdentifierChar c = false
      rcases token with (name | string | number) | m
      · exact absurd (isNameContinue_of_isNameStart hstarts) (by simp [hcontinue])
      · rcases (Bool.or_eq_true_iff.1 hstarts).imp beq_iff_eq.1 beq_iff_eq.1 with rfl | rfl <;>
          decide
      · exact absurd (of_isDigit hstarts).2 (by simp [hcontinue])
      · cases m <;> obtain rfl := Option.some.inj (beq_iff_eq.1 hstarts) <;> decide

theorem lists_name (name : Name) (hname : isIdentifierChars name.chars = true) :
    Lists false (name.token :: more) more [name.chars] := by
  intro text htext
  obtain ⟨rest, hdrop, hword, hrest⟩ := isSpaced_cons.1 htext
  obtain ⟨afterDot, hdot, heq⟩ := exists_occurrencesFrom_dropWhile false text
  refine ⟨rest, hrest, ?_⟩
  have hhead := head?_any_isIdentifierChar hrest (hword rfl)
  have hdrop : text.dropWhile Script.isSpace = name.chars ++ rest := hdrop
  rw [heq, hdot rfl, hdrop]
  generalize name.chars = chars at hname ⊢
  rcases chars with _ | ⟨c, cs⟩
  · cases hname
  · obtain ⟨hstart, hmore⟩ := Bool.and_eq_true_iff.1 hname
    have hquote : isQuote c = false :=
      (of_isIdentifierChar (isIdentifierChar_of_isIdentifierStart hstart)).2.1
    have hstop : ∀ d ∈ rest.head?, isIdentifierChar d = false := by
      intro d hd
      rw [Option.mem_def.1 hd] at hhead
      exact hhead
    obtain ⟨htake, hbehind⟩ := Lexer.takeWhile_append_stop (List.all_eq_true.1 hmore) hstop
    rw [List.cons_append, occurrencesFrom, if_neg (Bool.eq_false_iff.1 hquote), if_pos hstart,
      if_neg Bool.false_ne_true, htake, hbehind]
    rfl

theorem lists_mark {m : Mark} (hm : m ≠ .spread) : Lists afterDot (.mark m :: more) more [] := by
  intro text htext
  obtain ⟨rest, hdrop, -, hrest⟩ := isSpaced_cons.1 htext
  obtain ⟨afterDot', -, heq⟩ := exists_occurrencesFrom_dropWhile afterDot text
  refine ⟨rest, hrest, ?_⟩
  rw [heq, hdrop]
  cases m
  case spread => exact absurd rfl hm
  all_goals
    exact congrArg _ (occurrencesFrom_cons (by decide) (by decide))

theorem Lists.between {m m' : Mark} (h : Lists false tokens (.mark m' :: more) names)
    (hm : m ≠ .spread) (hm' : m' ≠ .spread) : Lists afterDot (.mark m :: tokens) more names := by
  have hopen : Lists afterDot (.mark m :: tokens) tokens [] := lists_mark hm
  have hlists := hopen.append (h.append (lists_mark hm'))
  rwa [List.nil_append, List.append_nil] at hlists

/-- The dots of a spread are passed over if what follows does not depend on a dot. -/
theorem Lists.spread (h : ∀ afterDot, Lists afterDot tokens more names) :
    Lists false (.mark .spread :: tokens) more names := by
  intro text htext
  obtain ⟨rest, hdrop, -, hrest⟩ := isSpaced_cons.1 htext
  obtain ⟨afterDot', -, heq⟩ := exists_occurrencesFrom_dropWhile false text
  obtain ⟨last, hlast, hnames⟩ := h true rest hrest
  refine ⟨last, hlast, ?_⟩
  have hdots (afterDot : Bool) (cs : List Char) :
      occurrencesFrom afterDot ('.' :: cs) = occurrencesFrom true cs :=
    occurrencesFrom_cons (by decide) (by decide)
  have htext' : text.dropWhile Script.isSpace = '.' :: '.' :: '.' :: rest := hdrop
  rw [heq, htext', hdots, hdots, hdots, hnames]

/-- A string that a script reads ends at the same quote in an expression. -/
theorem skipString_of_readStringBody {quote : Char} (hquote : quote ≠ '\n') {text rest : List Char}
    (h : (Script.readStringBody quote text).map Prod.snd = some rest) :
    skipString quote text = rest := by
  -- What a step reads of the string does not matter.
  have hsnd (chars : List Char) {found : Option (List Char × List Char)}
      (h : (found.map fun pair => (chars ++ pair.1, pair.2)).map Prod.snd = some rest) :
      found.map Prod.snd = some rest := by
    rw [Option.map_map] at h
    exact h
  fun_induction Script.readStringBody quote text
  case case1 => cases h
  case case2 cs ih =>
    have hnewline : ¬('\n' == quote) = true := by simpa using hquote.symm
    rw [skipString, skipString.eq_3 _ _ _ fun _ _ heq _ => absurd heq (by decide),
      if_neg hnewline]
    exact ih (hsnd ['\\', '\n'] h)
  case case3 c cs _ _ ih =>
    rw [skipString]
    exact ih (hsnd ['\\', c] h)
  case case4 => cases h
  case case5 c cs _ hescape hclose =>
    rw [skipString.eq_3 _ _ _ fun d ds heq hds => hescape d ds heq hds, if_pos hclose]
    exact Option.some.inj h
  case case6 => cases h
  case case7 c cs _ hescape hclose _ ih =>
    rw [skipString.eq_3 _ _ _ fun d ds heq hds => hescape d ds heq hds, if_neg hclose]
    exact ih (hsnd [c] h)

/-- The digits of a number are passed over. -/
theorem occurrencesFrom_digits {digits rest : List Char} (hne : digits ≠ [])
    (h : digits.all Char.isDigit = true) :
    occurrencesFrom afterDot (digits ++ rest) = occurrencesFrom false rest := by
  induction digits generalizing afterDot with
  | nil => exact absurd rfl hne
  | cons c digits ih =>
    obtain ⟨hc, hdigits⟩ := Bool.and_eq_true_iff.1 h
    have hlt : c.toNat < 128 := Lexer.lt_of_isAlphanum (Bool.or_eq_true_iff.2 (.inr hc))
    have hdigit : c.isDigit = true → isQuote c = false ∧ isIdentifierStart c = false ∧
        isBlank c = false ∧ (c == '.') = false :=
      of_ascii hlt (by decide +kernel)
    obtain ⟨hquote, hstart, hblank, hdot⟩ := hdigit hc
    rw [List.cons_append, occurrencesFrom_cons hquote hstart, hblank, if_neg Bool.false_ne_true,
      hdot]
    rcases digits with _ | ⟨d, digits⟩
    · rfl
    · exact ih (List.cons_ne_nil _ _) hdigits

theorem lists_key (key : Key) (hkey : key.isName = false) :
    Lists afterDot (.key key :: more) more [] := by
  intro text htext
  obtain ⟨rest, hdrop, -, hrest⟩ := isSpaced_cons.1 htext
  obtain ⟨afterDot', -, heq⟩ := exists_occurrencesFrom_dropWhile afterDot text
  refine ⟨rest, hrest, ?_⟩
  rw [heq, hdrop]
  cases key with
  | name name => cases hkey
  | string string =>
    have hquote : isQuote string.quote = true ∧ string.quote ≠ '\n' := by
      rcases string.isQuote_quote with h | h <;> rw [h] <;> decide
    have hskip := skipString_of_readStringBody hquote.2 (string.ends rest)
    have htext' : (Token.key (.string string)).text ++ rest =
        string.quote :: (string.body ++ string.quote :: rest) := by
      simp [Token.text, Key.text]
    rw [htext', occurrencesFrom, if_pos hquote.1, hskip]
    rfl
  | number number =>
    exact congrArg _ (occurrencesFrom_digits number.ne_nil number.isDigit_digits)

/-- A comma in front of some tokens does not change their identifiers. -/
theorem Lists.of_comma (h : Lists false (.mark .comma :: tokens) more names) :
    Lists false tokens more names := by
  intro text htext
  have hcomma : isSpaced (.mark .comma :: tokens) (',' :: text) = true :=
    isSpaced_cons.2 ⟨text, List.dropWhile_cons_of_neg (by decide),
      fun h => absurd h Bool.false_ne_true, htext⟩
  obtain ⟨rest, hrest, hnames⟩ := h _ hcomma
  rw [occurrencesFrom_cons (by decide) (by decide)] at hnames
  exact ⟨rest, hrest, hnames⟩

end Tokens

/-! ### Identifiers of patterns -/

/-- Whether some texts are identifiers of expressions. -/
def AreIdentifiers (names : List (List Char)) : Prop :=
  ∀ name ∈ names, isIdentifierChars name = true

theorem Properties.lists_tail {properties : Properties} {more : List Token}
    {names : List (List Char)} (h : Lists false (properties.tokens ++ more) more names) :
    Lists false (properties.tokens.tail ++ more) more names := by
  cases properties
  case nil => exact h
  all_goals exact h.of_comma

theorem Items.lists_tail {items : Items} {more : List Token}
    {names : List (List Char)} (h : Lists false (items.tokens ++ more) more names) :
    Lists false (items.tokens.tail ++ more) more names := by
  cases items
  case nil => exact h
  all_goals exact h.of_comma

mutual

/-- The identifiers of a plain pattern are the names that it binds. -/
theorem Pattern.lists (pattern : Pattern) (hplain : pattern.isPlain = true)
    (hnames : AreIdentifiers pattern.names) {afterDot : Bool}
    (hdot : pattern.isName = true → afterDot = false) (more : List Token) :
    Lists afterDot (pattern.tokens ++ more) more pattern.names := by
  match pattern with
  | .name identifier =>
    rw [hdot rfl]
    exact lists_name identifier.toName (hnames _ (List.mem_singleton.2 rfl))
  | .object properties =>
    have htokens : (Pattern.object properties).tokens ++ more =
        .mark .openBrace :: (properties.tokens.tail ++ .mark .closeBrace :: more) := by
      simp [Pattern.tokens]
    have htail := Properties.lists_tail (properties.lists hplain hnames (.mark .closeBrace :: more))
    rw [htokens]
    exact htail.between (by decide) (by decide)
  | .array items =>
    have htokens : (Pattern.array items).tokens ++ more =
        .mark .openBracket :: (items.tokens.tail ++ .mark .closeBracket :: more) := by
      simp [Pattern.tokens]
    have htail := Items.lists_tail (items.lists hplain hnames (.mark .closeBracket :: more))
    rw [htokens]
    exact htail.between (by decide) (by decide)

theorem Properties.lists (properties : Properties) (hplain : properties.isPlain = true)
    (hnames : AreIdentifiers properties.names) (more : List Token) :
    Lists false (properties.tokens ++ more) more properties.names := by
  match properties with
  | .nil => exact fun text htext => ⟨text, htext, rfl⟩
  | .rest _ => cases hplain
  | .shorthand identifier rest =>
    obtain ⟨hname, hrest⟩ := List.forall_mem_cons.1 hnames
    exact (lists_mark (by decide)).append
      ((lists_name identifier.toName hname).append (rest.lists hplain hrest more))
  | .keyed key pattern rest =>
    obtain ⟨hkey, hrestPlain⟩ := Bool.and_eq_true_iff.1 hplain
    obtain ⟨hkey, hpatternPlain⟩ := Bool.and_eq_true_iff.1 hkey
    obtain ⟨hpattern, hrest⟩ := List.forall_mem_append.1 hnames
    rw [Properties.tokens, List.cons_append, List.cons_append, List.cons_append, List.append_assoc]
    have hlists := pattern.lists hpatternPlain hpattern (fun _ => rfl) (rest.tokens ++ more)
    exact (lists_mark (by decide)).append ((lists_key key (Bool.not_eq_true' _ ▸ hkey)).append
      ((lists_mark (by decide)).append (hlists.append (rest.lists hrestPlain hrest more))))

theorem Items.lists (items : Items) (hplain : items.isPlain = true)
    (hnames : AreIdentifiers items.names) (more : List Token) :
    Lists false (items.tokens ++ more) more items.names := by
  match items with
  | .nil => exact fun text htext => ⟨text, htext, rfl⟩
  | .rest pattern =>
    obtain ⟨hname, hpatternPlain⟩ := Bool.and_eq_true_iff.1 hplain
    refine (lists_mark (by decide)).append (Lists.spread fun afterDot => ?_)
    refine pattern.lists hpatternPlain hnames (fun hisName => ?_) more
    rw [hisName] at hname
    cases hname
  | .cons pattern rest =>
    obtain ⟨hpatternPlain, hrestPlain⟩ := Bool.and_eq_true_iff.1 hplain
    obtain ⟨hpattern, hrest⟩ := List.forall_mem_append.1 hnames
    rw [Items.tokens, List.cons_append, List.append_assoc]
    have hlists := pattern.lists hpatternPlain hpattern (fun _ => rfl) (rest.tokens ++ more)
    exact (lists_mark (by decide)).append (hlists.append (rest.lists hrestPlain hrest more))

end

/-- The identifiers of a list of plain patterns are the names that they bind. -/
theorem lists_listed {patterns : List Pattern}
    (hplain : ∀ pattern ∈ patterns, pattern.isPlain = true)
    (hnames : AreIdentifiers (patterns.flatMap Pattern.names)) (more : List Token) :
    Lists false (listed patterns ++ more) more (patterns.flatMap Pattern.names) := by
  have hled : Lists false
      (patterns.flatMap (fun pattern => .mark .comma :: pattern.tokens) ++ more) more
      (patterns.flatMap Pattern.names) := by
    induction patterns with
    | nil => exact fun text htext => ⟨text, htext, rfl⟩
    | cons pattern patterns ih =>
      obtain ⟨hpattern, hpatterns⟩ := List.forall_mem_cons.1 hplain
      rw [List.flatMap_cons] at hnames
      obtain ⟨hname, hmore⟩ := List.forall_mem_append.1 hnames
      rw [List.flatMap_cons, List.flatMap_cons, List.append_assoc, List.cons_append]
      exact (lists_mark (by decide)).append
        ((pattern.lists hpattern hname (fun _ => rfl) _).append (ih hpatterns hmore))
  cases patterns with
  | nil => exact hled
  | cons pattern patterns => exact hled.of_comma

/-- The identifiers of a whole text of tokens. -/
theorem Lists.identifiers_eq {tokens : List Token} {names : List (List Char)} {text : List Char}
    (h : Lists false tokens [] names) (htext : isSpaced tokens text = true) :
    identifiers (String.ofList text) = names.map String.ofList := by
  obtain ⟨rest, hrest, hnames⟩ := h text htext
  obtain ⟨afterDot, -, heq⟩ := exists_occurrencesFrom_dropWhile false rest
  have hnil : rest.dropWhile Script.isSpace = [] :=
    List.dropWhile_eq_nil_iff.2 (List.all_eq_true.1 hrest)
  rw [heq, hnil, occurrencesFrom, List.map_nil, List.append_nil] at hnames
  rw [identifiers_eq_map, String.toList_ofList, occurrences, hnames]

/-! ### Aliases -/

/-- Whether a text is a list of patterns with commas between them, perhaps in parentheses. -/
def isList (patterns : List Pattern) (text : List Char) : Bool :=
  isSpaced (listed patterns) text ||
    isSpaced (.mark .openParen :: (listed patterns ++ [.mark .closeParen])) text

/-- The aliases of a `v-for` are the names that the patterns of its left side bind, in their order,
    as a script with the same patterns binds them, if no key there is a name, no name takes the
    rest, and all names are identifiers of expressions; and the right side has no blanks around
    it. -/
theorem parse?_of_isPlain {patterns : List Pattern} {left word right : List Char}
    (hleft : isList patterns left = true)
    (hplain : ∀ pattern ∈ patterns, pattern.isPlain = true)
    (hnames : AreIdentifiers (patterns.flatMap Pattern.names))
    (hword : word ∈ iterationWords)
    (hwords : ∀ word ∈ iterationWords, ¬word <:+: left ++ [' ']) :
    Iteration.parse? (String.ofList (left ++ (word ++ right))) =
      some ⟨(patterns.flatMap Pattern.names).map String.ofList, String.ofList (trim right)⟩ ∧
    ∀ pattern ∈ patterns, pattern.inScript.names = pattern.names.map String.ofList := by
  refine ⟨?_, fun pattern _ => pattern.names_inScript⟩
  rw [Iteration.parse?_append hword hwords]
  have hlisted := lists_listed hplain hnames []
  rw [List.append_nil] at hlisted
  have hparens : Lists false (.mark .openParen :: (listed patterns ++ [.mark .closeParen])) []
      (patterns.flatMap Pattern.names) :=
    (lists_listed hplain hnames [.mark .closeParen]).between (by decide) (by decide)
  rcases Bool.or_eq_true_iff.1 hleft with hspaced | hspaced
  · rw [hlisted.identifiers_eq hspaced]
  · rw [hparens.identifiers_eq hspaced]

/-- A key that is a string, a pattern that takes the rest, and parentheses around the list. -/
theorem parse?_of_isPlain_parens :
    let pattern : Pattern :=
      .object (.keyed (.string ⟨'\'', "a b".toList, .inr rfl, fun _ => rfl⟩)
        (.array (.cons (.name (.of "x")) (.rest (.array (.cons (.name (.of "y")) .nil)))))
        (.shorthand (.of "z") .nil))
    isList [pattern, .name (.of "i")] "(\x7b 'a b': [x, ...[y]], z \x7d, i)".toList = true ∧
      Iteration.parse? "(\x7b 'a b': [x, ...[y]], z \x7d, i) of  items " =
        some ⟨["x", "y", "z", "i"], "items"⟩ ∧
      pattern.inScript.names = ["x", "y", "z"] := by
  intro pattern
  have hleft : isList [pattern, .name (.of "i")]
      "(\x7b 'a b': [x, ...[y]], z \x7d, i)".toList = true := by
    decide +kernel
  have hnames : ∀ name ∈ ["x".toList, "y".toList, "z".toList, "i".toList],
      isIdentifierChars name = true := by
    decide +kernel
  have hword : " of ".toList ∈ iterationWords := List.mem_cons_of_mem _ List.mem_cons_self
  have hwords : ∀ word ∈ iterationWords,
      ¬word <:+: "(\x7b 'a b': [x, ...[y]], z \x7d, i)".toList ++ [' '] :=
    forall_mem_iterationWords.2 (by decide +kernel)
  obtain ⟨hread, hinScript⟩ := @parse?_of_isPlain _ _ _ " items ".toList hleft
    (List.forall_mem_cons.2 ⟨rfl, List.forall_mem_singleton.2 rfl⟩) hnames hword hwords
  exact ⟨hleft, hread, hinScript pattern List.mem_cons_self⟩

/-- A key that is a name is taken for an alias, and a name that takes the rest for the name of a
    member; and a name that is a word ends the left side, with the blank behind it. -/
theorem parse?_ne_names :
    (isList [.object (.keyed (.name (Identifier.of "a").toName) (.name (.of "b")) .nil),
        .name (.of "i")] "(\x7b a: b \x7d, i)".toList = true ∧
      (Pattern.object (.keyed (.name (Identifier.of "a").toName) (.name (.of "b")) .nil)).names =
        ["b".toList] ∧
      Iteration.parse? "(\x7b a: b \x7d, i) in items" = some ⟨["a", "b", "i"], "items"⟩) ∧
    (isList [.array (.cons (.name (.of "x")) (.rest (.name (.of "rest"))))] "[x, ...rest]".toList =
        true ∧
      (Pattern.array (.cons (.name (.of "x")) (.rest (.name (.of "rest"))))).names =
        ["x".toList, "rest".toList] ∧
      Iteration.parse? "[x, ...rest] in items" = some ⟨["x"], "items"⟩) ∧
    (isList [.name (.of "a"), .name (.of "of")] "a, of".toList = true ∧
      (∀ word ∈ iterationWords, ¬word <:+: "a, of".toList) ∧
      Iteration.parse? "a, of in items" = some ⟨["a"], "in items"⟩) := by
  rw [Iteration.parse?_eq_read, Iteration.parse?_eq_read, Iteration.parse?_eq_read,
    forall_mem_iterationWords]
  decide +kernel

end PugLint.Binding
