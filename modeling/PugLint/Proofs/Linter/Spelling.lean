import PugLint.Proofs.Linter.Embedding
import PugLint.Proofs.Text.Category
import PugLint.Proofs.Token.Bracketing
import PugLint.Proofs.Token.Respelling

/-!
# The spelling of directives

The name of a directive may be written as a shorthand or in full. A template and the same
template with one such name in full are checked alike: the same rules report the same messages,
in the same order, on tokens that correspond.

Two rules look at names as they are written. One compares slots by their names and takes the
shorthand and the full name for two attributes. The other reads the modifiers of a listener from
its whole name if the event starts with no word. So the two spellings of a slot or of such a
listener are told apart where another attribute of the same list shares its name, or its event
with other system modifiers.

* `SameList`: attributes of the same list;
* `Registry.Blind`: no rule that is registered tells the two spellings apart;
* `lintTemplate_respelled`: what is reported of the two templates;
* `lintTemplate_respelled_fails`: the two rules, where they tell the spellings apart.
-/

namespace PugLint

open Text

variable {move : Nat → Nat} {verbatim : Prop}

/-! ### Documents -/

/-- The forest does not depend on the names of attributes. -/
theorem PlacedToken.Counterpart.step_eq {token token' : PlacedToken}
    (h : token.Counterpart move verbatim token') (b : ElementTree.Builder) (i : Nat) :
    b.step i token'.kind = b.step i token.kind :=
  h.kind_congr fun _ _ _ _ => rfl

theorem ElementTree.build_eq_of_forall₂ {tokens tokens' : List PlacedToken}
    (h : List.Forall₂ (PlacedToken.Counterpart move verbatim) tokens tokens') :
    build tokens' = build tokens := by
  have hrun : ∀ (b : Builder) (i : Nat), b.run i (tokens'.map PlacedToken.kind) =
      b.run i (tokens.map PlacedToken.kind) := by
    induction h with
    | nil => exact fun _ _ => rfl
    | cons htoken _ ih =>
      intro b i
      rw [List.map_cons, List.map_cons, Builder.run, Builder.run, htoken.step_eq, ih]
  rw [build, build, ofKinds, ofKinds, hrun]

/-- The document of a bare template. -/
def Document.bare (template : String) : Document :=
  .ofStream template (.bare template) {} (.ofBlock (.bare template))

theorem Document.stream_bare {template : String} {tokens : List Token}
    (h : tokenize template = .ok tokens) :
    (bare template).stream = ⟨(placeTokens tokens template.toList 0 1).toArray,
      .build (placeTokens tokens template.toList 0 1), false⟩ := by
  change TokenStream.ofBlock (.bare template) = _
  have hcontent : tokenize (TemplateBlock.bare template).content = .ok tokens := h
  rw [TokenStream.ofBlock, hcontent]
  rfl

/-- Templates whose tokens correspond, as documents. -/
theorem Document.counterpart_bare {template template' : String} {tokens tokens' : List Token}
    (h : tokenize template = .ok tokens) (h' : tokenize template' = .ok tokens')
    (htokens : List.Forall₂ (PlacedToken.Counterpart move verbatim)
      (placeTokens tokens template.toList 0 1) (placeTokens tokens' template'.toList 0 1)) :
    (bare template).Counterpart move verbatim (bare template') where
  token? i := by
    rw [stream_bare h, stream_bare h', List.getElem?_toArray, List.getElem?_toArray]
    exact rel_getElem? htokens i
  tree_eq := by
    rw [stream_bare h, stream_bare h']
    exact ElementTree.build_eq_of_forall₂ htokens
  script_eq := rfl

/-! ### Lists of attributes -/

/-- Tokens between which no list of attributes is opened. Two attributes are then in the same
    list. -/
def SameList (kinds : List TokenKind) (i j : Nat) : Prop :=
  ∀ n, min i j ≤ n → n ≤ max i j → kinds[n]? ≠ some .startAttributes

theorem Trackers.mem_scope_afterToken {trackers : Trackers} {i n : Nat} {kind : TokenKind}
    (h : i ∈ (trackers.afterToken n kind).scope) :
    (i ∈ trackers.scope ∨ i = n) ∧ kind ≠ .startAttributes := by
  unfold afterToken at h
  split at h
  case h_3 => exact absurd h List.not_mem_nil
  case h_4 =>
    split at h
    · exact ⟨(List.mem_append.1 h).imp_right List.mem_singleton.1, nofun⟩
    · exact ⟨.inl h, nofun⟩
  case h_6 hstart _ _ => exact ⟨.inl h, hstart⟩
  all_goals exact ⟨.inl h, nofun⟩

/-- Behind the first of the attributes that are known, no list has been opened. -/
theorem Trackers.mem_scope_behind {tokens : List PlacedToken} {tree : ElementTree} {n i : Nat}
    (hn : n ≤ tokens.length) (hi : i ∈ (behind tokens.toArray tree n).scope) :
    i < n ∧ ∀ m, i ≤ m → m < n → (tokens.map PlacedToken.kind)[m]? ≠ some .startAttributes := by
  induction n with
  | zero => exact absurd hi List.not_mem_nil
  | succ n ih =>
    have htoken : tokens[n]? = some tokens[n] := List.getElem?_eq_getElem hn
    rw [behind, (update_fields _ tree htoken).2.1] at hi
    obtain ⟨hmem, hkind⟩ := mem_scope_afterToken hi
    have hlast : (tokens.map PlacedToken.kind)[n]? ≠ some .startAttributes := by
      rw [List.getElem?_map, htoken]
      exact fun heq => hkind (Option.some.inj heq)
    rcases hmem with hmem | rfl
    · obtain ⟨hlt, hbetween⟩ := ih (Nat.le_of_succ_le hn) hmem
      refine ⟨Nat.lt_succ_of_lt hlt, fun m hm hmn => ?_⟩
      rcases Nat.lt_succ_iff_lt_or_eq.1 hmn with hmn | rfl
      · exact hbetween m hm hmn
      · exact hlast
    · refine ⟨Nat.lt_succ_self _, fun m hm hmn => ?_⟩
      obtain rfl : m = i := by omega
      exact hlast

/-- The attributes that are known at a token, and the token itself. -/
theorem Trackers.sameList_behind {tokens : List PlacedToken} {tree : ElementTree} {n i j : Nat}
    (hn : n < tokens.length) (hne : i ≠ j)
    (hi : i ∈ n :: (behind tokens.toArray tree (n + 1)).scope)
    (hj : j ∈ n :: (behind tokens.toArray tree (n + 1)).scope) :
    SameList (tokens.map PlacedToken.kind) i j := by
  intro m hle hge
  rcases List.mem_cons.1 hi with rfl | hi
  · rcases List.mem_cons.1 hj with rfl | hj
    · exact absurd rfl hne
    · have hj := mem_scope_behind hn hj
      exact hj.2 m (by omega) (by omega)
  · have hi := mem_scope_behind hn hi
    rcases List.mem_cons.1 hj with rfl | hj
    · exact hi.2 m (by omega) (by omega)
    · have hj := mem_scope_behind hn hj
      rcases Nat.le_total i j with hij | hij
      · exact hi.2 m (by omega) (by omega)
      · exact hj.2 m (by omega) (by omega)

/-! ### Rules -/

/-- No rule that is registered tells the two spellings of a name apart. Duplicates are sought
    by name, so that no other attribute of the list may have the name of a slot, in either
    spelling. Listeners are compared by event, so that no other one of the list may have the event
    of a listener and other system modifiers, unless the event starts with a word. -/
structure Registry.Blind (registry : Registry) (kinds : List TokenKind) (k : Nat)
    (shorthand : Shorthand) (rest : List Char) : Prop where
  slots : shorthand = .slot → registry.contains "vue/no-duplicate-attributes" = true →
    ∀ j ≠ k, SameList kinds k j → ∀ raw value escaped key,
      kinds[j]? = some (.attribute raw value escaped) → Rule.attributeKey? raw = some key →
      key.1 ≠ shorthand.short rest ∧ key.1 ≠ shorthand.full rest
  listeners : shorthand = .on → registry.contains "vue/use-v-on-exact" = true →
    Shorthand.startsWithWord rest = false →
    ∀ j ≠ k, SameList kinds k j → ∀ raw value escaped listener other,
      kinds[j]? = some (.attribute raw value escaped) →
      Rule.Listener.parse? k (shorthand.short rest) = some listener →
      Rule.Listener.parse? j raw = some other → other.event = listener.event →
      other.systemText = listener.systemText

theorem Document.name?_viewAt (document : Document) (n i : Nat) :
    (document.viewAt n).name? i =
      (document.stream.tokens.toList.map PlacedToken.kind)[i]?.bind
        fun kind => kind.attribute?.map Prod.fst := by
  rw [View.name?, List.getElem?_map, Option.bind_map, Array.getElem?_toList]
  rfl

section OneName

variable {document document' : Document} {kinds : List TokenKind} {k : Nat} {shorthand : Shorthand}
  {rest : List Char} {value : Option String} {escaped : Bool}
  (hkinds : document.stream.tokens.toList.map PlacedToken.kind = kinds)
  (hkinds' : document'.stream.tokens.toList.map PlacedToken.kind =
    kinds.set k (.attribute (shorthand.full rest) value escaped))
  (htoken : kinds[k]? = some (.attribute (shorthand.short rest) value escaped))

include hkinds hkinds' htoken

/-- Where the tokens of two documents differ in one name, no other name is respelled. -/
theorem Document.eq_of_respells {n i : Nat} {shorthand' : Shorthand} {rest' : List Char}
    (h : (document.viewAt n).Respells (document'.viewAt n) shorthand' rest' i) :
    i = k ∧ shorthand' = shorthand ∧ rest' = rest := by
  obtain ⟨hshort, hfull⟩ := h
  rw [name?_viewAt, hkinds] at hshort
  rw [name?_viewAt, hkinds'] at hfull
  by_cases hik : i = k
  · rw [hik, htoken] at hshort
    exact ⟨hik, Shorthand.short_inj (Option.some.inj hshort).symm⟩
  · rw [List.getElem?_set_ne (Ne.symm hik), hshort] at hfull
    exact absurd (Option.some.inj hfull) (shorthand'.short_ne_full rest')

omit hkinds' htoken in
theorem Document.exists_of_name? {n j : Nat} {raw : String}
    (h : (document.viewAt n).name? j = some raw) :
    ∃ value escaped, kinds[j]? = some (.attribute raw value escaped) := by
  rw [name?_viewAt, hkinds] at h
  obtain ⟨kind, hkind, h⟩ := Option.bind_eq_some_iff.1 h
  obtain ⟨⟨name, value⟩, hattribute, rfl⟩ := Option.map_eq_some_iff.1 h
  obtain ⟨escaped, rfl⟩ := TokenKind.exists_of_attribute? hattribute
  exact ⟨value, escaped, hkind⟩

theorem Registry.Blind.slotsApart {registry : Registry} (h : registry.Blind kinds k shorthand rest)
    (hrule : registry.contains "vue/no-duplicate-attributes" = true) {n : Nat}
    (hn : n < document.stream.tokens.size) :
    (document.viewAt n).SlotsApart (document'.viewAt n) := by
  intro i hi j hj hne rest' raw key hrespells hname hkey
  obtain ⟨rfl, rfl, rfl⟩ := Document.eq_of_respells hkinds hkinds' htoken hrespells
  obtain ⟨value, escaped, hraw⟩ := Document.exists_of_name? hkinds hname
  have hlist := Trackers.sameList_behind hn hne hi hj
  rw [hkinds] at hlist
  exact h.slots rfl hrule j hne.symm hlist raw value escaped key hraw hkey

theorem Registry.Blind.listenersApart {registry : Registry}
    (h : registry.Blind kinds k shorthand rest)
    (hrule : registry.contains "vue/use-v-on-exact" = true) {n : Nat}
    (hn : n < document.stream.tokens.size) :
    (document.viewAt n).ListenersApart (document'.viewAt n) := by
  intro i hi j hj hne rest' raw listener other hrespells hword hname
  obtain ⟨rfl, rfl, rfl⟩ := Document.eq_of_respells hkinds hkinds' htoken hrespells
  obtain ⟨value, escaped, hraw⟩ := Document.exists_of_name? hkinds hname
  have hlist := Trackers.sameList_behind hn hne (List.mem_cons_of_mem n hi)
    (List.mem_cons_of_mem n hj)
  rw [hkinds] at hlist
  exact h.listeners rfl hrule hword j hne.symm hlist raw value escaped listener other hraw

end OneName

/-- About a bare template as a whole nothing is found. -/
theorem Rule.BuiltIn.check_block_bare {rule : Rule} (h : rule.BuiltIn) {document : Document}
    {template : String} (hdocument : document.template = .bare template) :
    rule.check .block document.blockView = [] := by
  rcases h.check_block with rfl | h
  · simp only [Rule.validRoot, show document.blockView.document.template = _ from hdocument]
    rfl
  · exact h _

theorem Registry.contains_of_mem {registry : Registry} {entry : Rule × Severity}
    (h : entry ∈ registry.rules) : registry.contains entry.1.name = true := by
  by_contra hcontains
  exact name_ne_of_contains (Bool.eq_false_iff.2 hcontains) h rfl

/-- What is reported of a template and of the same template with a name in full. -/
theorem Registry.forall₂_check_respelled {registry : Registry}
    (hrules : ∀ entry ∈ registry.rules, entry.1.BuiltIn) {template template' : String}
    {tokens tokens' : List Token} {k : Nat} {shorthand : Shorthand} {rest : List Char}
    {value : Option String} {escaped : Bool} (htokens : tokenize template = .ok tokens)
    (htokens' : tokenize template' = .ok tokens')
    (htoken : (tokens.map Token.kind)[k]? = some (.attribute (shorthand.short rest) value escaped))
    (hkinds : tokens'.map Token.kind =
      (tokens.map Token.kind).set k (.attribute (shorthand.full rest) value escaped))
    (hplaced : List.Forall₂ (PlacedToken.Counterpart move verbatim)
      (placeTokens tokens template.toList 0 1) (placeTokens tokens' template'.toList 0 1))
    (hblind : registry.Blind (tokens.map Token.kind) k shorthand rest) :
    List.Forall₂ (Diagnostic.Counterpart move verbatim (LineIndex.ofText template.toList)
        (LineIndex.ofText template'.toList))
      (registry.check template (.bare template) {}).diagnostics
      (registry.check template' (.bare template') {}).diagnostics := by
  have hdocument := Document.counterpart_bare htokens htokens' hplaced
  have hstream : (Document.bare template).stream.tokens.toList.map PlacedToken.kind =
      tokens.map Token.kind := by
    rw [Document.stream_bare htokens, List.toList_toArray, map_kind_placeTokens]
  have hstream' : (Document.bare template').stream.tokens.toList.map PlacedToken.kind =
      (tokens.map Token.kind).set k (.attribute (shorthand.full rest) value escaped) := by
    rw [Document.stream_bare htokens', List.toList_toArray, map_kind_placeTokens, hkinds]
  refine Session.forall₂_check hdocument (fun entry hentry => ?_) fun entry hentry i hi => ?_
  · have hbuiltIn := hrules entry hentry
    rw [hbuiltIn.check_block_bare rfl, hbuiltIn.check_block_bare rfl]
    exact .nil
  · have hcontains := contains_of_mem hentry
    refine (hrules entry hentry).corresponds (hdocument.viewAt hi) ?_ ?_
    · rintro ⟨coexistence, hrule⟩
      rw [hrule] at hcontains
      exact hblind.slotsApart hstream hstream' htoken hcontains hi
    · intro hrule
      rw [hrule] at hcontains
      exact hblind.listenersApart hstream hstream' htoken hcontains hi

/-! ### Results -/

/-- A template and the same template with the name of a directive in full: the other tokens are the
    same, and the same rules report the same messages in the same order, on the tokens that
    correspond. -/
theorem lintTemplate_respelled [Caching] (registry : Registry)
    (hrules : ∀ entry ∈ registry.rules, entry.1.BuiltIn) {template template' : String}
    {tokens : List Token} {k : Nat} {shorthand : Shorthand} {before rest : List Char}
    (h : Respelling template template' tokens k shorthand before rest)
    (hblind : registry.Blind (tokens.map Token.kind) k shorthand rest) (filename : String) :
    let move := shorthand.moved (byteLength before)
    let result := ((Linter.ofRegistry registry).lintTemplate .start template filename).1
    let result' := ((Linter.ofRegistry registry).lintTemplate .start template' filename).1
    ∃ tokens' value escaped, tokenize template' = .ok tokens' ∧
      (tokens.map Token.kind)[k]? = some (.attribute (shorthand.short rest) value escaped) ∧
      tokens'.map Token.kind =
        (tokens.map Token.kind).set k (.attribute (shorthand.full rest) value escaped) ∧
      (placeTokens tokens' template'.toList 0 1).map (fun token => (token.start, token.stop)) =
        (placeTokens tokens template.toList 0 1).map
          (fun token => (move token.start, move token.stop)) ∧
      result'.diagnostics.map (fun diagnostic => (diagnostic.ruleName, diagnostic.severity,
          diagnostic.messageId, diagnostic.start, diagnostic.stop)) =
        result.diagnostics.map (fun diagnostic => (diagnostic.ruleName, diagnostic.severity,
          diagnostic.messageId, move diagnostic.start, move diagnostic.stop)) := by
  intro move result result'
  obtain ⟨tokens', value, escaped, htokens', htoken, hkinds, hplaced⟩ := h.exists_tokenize
  have hresult : result = _ := Linter.lintTemplate_ofRegistry registry template filename
  have hresult' : result' = _ := Linter.lintTemplate_ofRegistry registry template' filename
  have hdiagnostics := LintResult.forall₂_ofDiagnostics
    (shorthand.strictMono_moved (byteLength before))
    (registry.forall₂_check_respelled hrules h.tokenize_eq htokens' htoken hkinds hplaced hblind)
    filename filename (registry.check template (.bare template) {}).used
    (registry.check template' (.bare template') {}).used
  rw [← hresult, ← hresult'] at hdiagnostics
  refine ⟨tokens', value, escaped, htokens', htoken, hkinds, ?_, ?_⟩
  · symm
    rw [← List.forall₂_eq_eq_eq, List.forall₂_map_left_iff, List.forall₂_map_right_iff]
    refine hplaced.imp fun token token' htoken => ?_
    rw [htoken.start_eq, htoken.stop_eq]
  · symm
    rw [← List.forall₂_eq_eq_eq, List.forall₂_map_left_iff, List.forall₂_map_right_iff]
    refine hdiagnostics.imp fun diagnostic diagnostic' hdiagnostic => ?_
    rw [hdiagnostic.ruleName_eq, hdiagnostic.severity_eq, hdiagnostic.messageId_eq,
      hdiagnostic.start_eq, hdiagnostic.stop_eq]

/-- The tokens of an element with a slot and an attribute that is given twice. -/
def slotTokens : List Token :=
  [⟨.tag "div", ⟨1, 1⟩, ⟨1, 4⟩⟩, ⟨.startAttributes, ⟨1, 4⟩, ⟨1, 5⟩⟩,
    ⟨.attribute "#a" none true, ⟨1, 5⟩, ⟨1, 7⟩⟩, ⟨.attribute "b" none true, ⟨1, 8⟩, ⟨1, 9⟩⟩,
    ⟨.attribute "b" none true, ⟨1, 10⟩, ⟨1, 11⟩⟩, ⟨.endAttributes, ⟨1, 11⟩, ⟨1, 12⟩⟩,
    ⟨.eos, ⟨1, 12⟩, ⟨1, 12⟩⟩]

theorem lintTemplate_respelled_slot :
    let registry : Registry := ⟨[{ rule := .noDuplicateAttributes {} }, { rule := .requireExact }]⟩
    let report (template : String) :=
      ((Linter.ofRegistry registry).lintTemplate .start template "a.pug").1.diagnostics.map
        fun diagnostic => (diagnostic.ruleName, diagnostic.severity, diagnostic.messageId,
          diagnostic.start, diagnostic.stop)
    (∀ entry ∈ registry.rules, entry.1.BuiltIn) ∧
      Respelling "div(#a b b)" "div(v-slot:a b b)" slotTokens 2 .slot ['d', 'i', 'v', '('] ['a'] ∧
      registry.Blind (slotTokens.map Token.kind) 2 .slot ['a'] ∧
      report "div(#a b b)" =
        [("vue/no-duplicate-attributes", .error, some "duplicateAttribute", 9, 10)] ∧
      report "div(v-slot:a b b)" =
        [("vue/no-duplicate-attributes", .error, some "duplicateAttribute", 15, 16)] := by
  intro registry report
  have hrules : ∀ entry ∈ registry.rules, entry.1.BuiltIn :=
    List.forall_mem_cons.2
      ⟨.noDuplicateAttributes {}, List.forall_mem_cons.2 ⟨.requireExact, nofun⟩⟩
  have hrespelling : Respelling "div(#a b b)" "div(v-slot:a b b)" slotTokens 2 .slot
      ['d', 'i', 'v', '('] ['a'] :=
    ⟨by decide +kernel, ⟨none, true, ⟨1, 7⟩, by decide +kernel⟩,
      ⟨" b b)".toList, by decide +kernel, by decide +kernel⟩⟩
  have hblind : registry.Blind (slotTokens.map Token.kind) 2 .slot ['a'] := by
    refine ⟨fun _ _ j hj _ raw value escaped key hraw hkey => ?_, nofun⟩
    match j with
    | 0 | 1 | 5 | 6 => cases hraw
    | 2 => exact absurd rfl hj
    | 3 | 4 =>
      cases hraw
      cases hkey
      decide
    | _ + 7 => cases hraw
  have hshort : report "div(#a b b)" =
      [("vue/no-duplicate-attributes", .error, some "duplicateAttribute", 9, 10)] := by
    decide +kernel
  obtain ⟨_, _, _, -, -, -, -, hfull⟩ :=
    lintTemplate_respelled registry hrules hrespelling hblind "a.pug"
  have hmoved : report "div(v-slot:a b b)" = (report "div(#a b b)").map
      fun (ruleName, severity, messageId, start, stop) => (ruleName, severity, messageId,
        Shorthand.slot.moved 4 start, Shorthand.slot.moved 4 stop) := by
    rw [List.map_map]
    exact hfull
  rw [hshort] at hmoved
  exact ⟨hrules, hrespelling, hblind, hshort, hmoved⟩

/-- The tokens of an element with a slot that is given twice. -/
def doubledTokens : List Token :=
  [⟨.tag "div", ⟨1, 1⟩, ⟨1, 4⟩⟩, ⟨.startAttributes, ⟨1, 4⟩, ⟨1, 5⟩⟩,
    ⟨.attribute "#a" none true, ⟨1, 5⟩, ⟨1, 7⟩⟩, ⟨.attribute "#a" none true, ⟨1, 8⟩, ⟨1, 10⟩⟩,
    ⟨.endAttributes, ⟨1, 10⟩, ⟨1, 11⟩⟩, ⟨.eos, ⟨1, 11⟩, ⟨1, 11⟩⟩]

/-- A listener whose event starts with a bracket has what is written among its modifiers. -/
theorem Rule.Listener.parse?_bracket {raw : String} {rest : List Char}
    (h : unprefixed? raw.toList = some ('[' :: rest)) (token : Nat) :
    parse? token raw = some ⟨token, String.ofList (('[' :: rest).takeWhile (· != '.')),
      (Directive.splitDots raw.toList).map String.ofList⟩ := by
  have hword : Shorthand.startsWithWord ('[' :: rest) = false := by
    rw [Shorthand.startsWithWord, List.head?_cons, Option.any_some, Text.isWordChar_bracket]
  rw [parse?, h, Option.map_some, Shorthand.modifierText_of_not_word _ _ hword]

/-- The two rules tell the spellings apart. A slot that is given twice is no duplicate if one of
    the two is written in full. And of two listeners of the same event that starts with no word,
    the one with a modifier should be exact, but not if the other one is written in full. -/
theorem lintTemplate_respelled_fails :
    let registry : Registry := ⟨[{ rule := .noDuplicateAttributes {} }]⟩
    let report (template : String) :=
      ((Linter.ofRegistry registry).lintTemplate .start template "a.pug").1.diagnostics.map
        fun diagnostic => (diagnostic.ruleName, diagnostic.messageId)
    let inexact (name name' : String) :=
      (Rule.Listener.inexact ((Rule.Listener.parse? 2 name).toList ++
        (Rule.Listener.parse? 3 name').toList)).map Rule.Listener.token
    (Respelling "div(#a #a)" "div(v-slot:a #a)" doubledTokens 2 .slot ['d', 'i', 'v', '('] ['a'] ∧
      report "div(#a #a)" = [("vue/no-duplicate-attributes", some "duplicateAttribute")] ∧
      report "div(v-slot:a #a)" = []) ∧
    inexact "@[e]" "@[e].ctrl" = [3] ∧ inexact "v-on:[e]" "@[e].ctrl" = [] := by
  intro registry report inexact
  have hslot : Respelling "div(#a #a)" "div(v-slot:a #a)" doubledTokens 2 .slot
      ['d', 'i', 'v', '('] ['a'] :=
    ⟨by decide +kernel, ⟨none, true, ⟨1, 7⟩, by decide +kernel⟩,
      ⟨" #a)".toList, by decide +kernel, by decide +kernel⟩⟩
  refine ⟨⟨hslot, by decide +kernel, by decide +kernel⟩, ?_⟩
  have hshort : Rule.Listener.unprefixed? "@[e]".toList = some ('[' :: "e]".toList) := by
    decide +kernel
  have hfull : Rule.Listener.unprefixed? "v-on:[e]".toList = some ('[' :: "e]".toList) := by
    decide +kernel
  have hother : Rule.Listener.unprefixed? "@[e].ctrl".toList =
      some ('[' :: "e].ctrl".toList) := by
    decide +kernel
  simp only [inexact, Rule.Listener.parse?_bracket hshort, Rule.Listener.parse?_bracket hfull,
    Rule.Listener.parse?_bracket hother]
  decide +kernel

end PugLint
