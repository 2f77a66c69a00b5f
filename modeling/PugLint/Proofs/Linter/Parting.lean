import PugLint.Proofs.Session.Rejoining
import PugLint.Proofs.Token.Parting

/-!
# Elements with two lists of attributes

The attributes of an element may stand in one list or in two that follow each other. The elements
are the same, and where no attribute is compared with one of the other part alone, so is what is
reported: the same rules report the same messages on tokens that correspond.

Three rules look at one list at a time. So a duplicate of an attribute of the other part is not
reported, a `v-for` does not allow the key of the other part, and a listener need not be exact
because of one in the other part.

* `Diagnostic.said`: what a diagnostic says, and about which range;
* `Document.shift`: a document whose tokens stand further back;
* `lintTemplate_parted`: what is reported of the two templates;
* `lintTemplate_parted_fails`: a duplicate that is reported in one list and not in two.
-/

namespace PugLint

open Text

variable {move : Nat → Nat}

/-! ### Diagnostics at other places -/

/-- What a diagnostic says, and about which range, with its places moved. -/
def Diagnostic.said (move : Nat → Nat) (diagnostic : Diagnostic) :
    String × Severity × Option String × Nat × Nat :=
  (diagnostic.ruleName, diagnostic.severity, diagnostic.messageId, move diagnostic.start,
    move diagnostic.stop)

theorem Diagnostic.said_comp (after move : Nat → Nat) :
    said (after ∘ move) =
      Prod.map id (Prod.map id (Prod.map id (Prod.map after after))) ∘ said move := rfl

/-- A check says the same of a document whose tokens are moved, at places that are moved. -/
theorem Session.map_said_check {document document' : Document}
    (h : document.Counterpart move True document') {rules : List (Rule × Severity)}
    (hrules : ∀ entry ∈ rules, entry.1.BuiltIn) {template template' : String}
    (hdocument : document.template = .bare template)
    (hdocument' : document'.template = .bare template') :
    (check document' rules).diagnostics.map (Diagnostic.said id) =
      (check document rules).diagnostics.map (Diagnostic.said move) := by
  have hblock : ∀ entry ∈ rules, Correspond move True (entry.1.check .block document.blockView)
      (entry.1.check .block document'.blockView) := by
    intro entry hentry
    rw [(hrules entry hentry).check_block_bare hdocument,
      (hrules entry hentry).check_block_bare hdocument']
    exact .nil
  have hcheck := forall₂_check h hblock fun entry hentry i hi =>
    (hrules entry hentry).corresponds (h.viewAt hi) (fun _ => (h.viewAt hi).slotsApart trivial)
      fun _ => (h.viewAt hi).listenersApart trivial
  symm
  rw [← List.forall₂_eq_eq_eq, List.forall₂_map_left_iff, List.forall₂_map_right_iff]
  refine hcheck.imp fun diagnostic diagnostic' hdiagnostic => ?_
  rw [Diagnostic.said, Diagnostic.said, hdiagnostic.ruleName_eq, hdiagnostic.severity_eq,
    hdiagnostic.messageId_eq, hdiagnostic.start_eq, hdiagnostic.stop_eq]
  rfl

/-! ### Documents at other places -/

/-- A token that stands some bytes further back. -/
def PlacedToken.shift (n : Nat) (token : PlacedToken) : PlacedToken :=
  { token with start := token.start + n, stop := token.stop + n }

/-- A document whose tokens stand some bytes further back. -/
def Document.shift (n : Nat) (document : Document) : Document :=
  { document with
    stream := { document.stream with
      tokens := document.stream.tokens.map (PlacedToken.shift n) } }

/-- The tokens of a template have room for what is written in them. -/
theorem Document.roomy_bare (template : String) :
    ∀ token ∈ (bare template).stream.tokens, token.Roomy := fun token hm =>
  (TokenStream.inPlace_ofBlock (TemplateBlock.standsIn_bare template) token hm).roomy

theorem Document.counterpart_shift {document : Document}
    (h : ∀ token ∈ document.stream.tokens, token.Roomy) (n : Nat) :
    document.Counterpart (· + n) True (document.shift n) where
  token? i := by
    change Option.Rel _ _ (document.stream.tokens.map (PlacedToken.shift n))[i]?
    rw [Array.getElem?_map]
    cases htoken : document.stream.tokens[i]? with
    | none => exact .none
    | some token =>
      exact .some (.shifted n (h token (Array.mem_of_getElem? htoken))
        ⟨rfl, rfl, rfl, fun _ _ _ => rfl⟩)
  tree_eq := rfl
  script_eq := rfl

/-- The place that a place of a template with a list in two parts has where the list is whole:
    behind byte `first`, there are `inserted` bytes in place of `replaced` ones. -/
def rejoined (first inserted replaced place : Nat) : Nat :=
  if place ≤ first then place else place + replaced - inserted

/-- The same place, if all places move back by what is inserted. -/
def lifted (first inserted replaced place : Nat) : Nat :=
  if place ≤ first then place + inserted else place + replaced

theorem rejoined_eq (first inserted replaced : Nat) :
    rejoined first inserted replaced = (· - inserted) ∘ lifted first inserted replaced := by
  funext place
  simp only [rejoined, lifted, Function.comp_apply]
  split
  · rw [Nat.add_sub_cancel]
  · rfl

namespace PlacedToken.Rejoined

variable {first inserted replaced : Nat} {token token' : PlacedToken}
  (h : token.Rejoined first inserted replaced token')

include h

theorem kind_eq : token'.kind = token.kind := by
  cases h with
  | front hkind => exact hkind
  | back hkind => exact hkind

/-- A token and the same one where the list is whole are moved to the same place. -/
theorem counterpart (hinserted : 0 < inserted) (hroomy : token.Roomy) :
    token.Counterpart (lifted first inserted replaced) True (token'.shift inserted) := by
  cases h with
  | front hkind hstart hstop hle =>
    refine .shifted inserted hroomy ⟨hkind, ?_, ?_, fun place _ hplace => ?_⟩
    · exact congrArg (· + inserted) hstart
    · exact congrArg (· + inserted) hstop
    · exact if_pos (Nat.le_trans hplace hle)
  | back hkind hstart hstop hle =>
    exact .shifted replaced hroomy ⟨hkind, hstart, hstop, fun place hplace _ =>
      if_neg (by omega)⟩

theorem extent_eq (hinserted : 0 < inserted) (hroomy : token.Roomy) :
    (token.kind, rejoined first inserted replaced token.start,
      rejoined first inserted replaced token.stop) = token'.extent := by
  have hle := hroomy.start_le_stop
  cases h with
  | front hkind hstart hstop hfirst =>
    rw [extent, hkind, hstart, hstop, rejoined, rejoined, if_pos hfirst,
      if_pos (Nat.le_trans hle hfirst)]
  | back hkind hstart hstop hfirst =>
    rw [extent, hkind, rejoined, rejoined, if_neg (by omega), if_neg (by omega), ← hstart,
      ← hstop, Nat.add_sub_cancel, Nat.add_sub_cancel]

end PlacedToken.Rejoined

/-! ### Templates -/

/-- What a rule compares does not depend on the places of tokens. -/
theorem Rule.Parts.congr {rule : Rule} {view view' : View} {first second : List String}
    (h : rule.Parts view first second) (htrackers : view'.trackers = view.trackers)
    (howner : view'.owner? = view.owner?)
    (hcomponent : ∀ element, view'.isCustomComponent element = view.isCustomComponent element) :
    rule.Parts view' first second := by
  refine ⟨h.duplicates, fun hrule htag => ?_, fun hrule element helement => ?_⟩
  · rw [htrackers] at htag
    exact h.keys hrule htag
  · rw [howner] at helement
    rw [hcomponent]
    exact h.listeners hrule element helement

/-- The document of a template, with other tokens. -/
def Document.bareWith (template : String) (tokens : List PlacedToken) : Document :=
  { bare template with stream := ⟨tokens.toArray, .build tokens, false⟩ }

section Rejoined

variable {template : String} {tokens : List Token} {others : List PlacedToken}
  {first inserted replaced : Nat} (htokens : tokenize template = .ok tokens)
  (hrejoined : List.Forall₂ (PlacedToken.Rejoined first inserted replaced) others
    (placeTokens tokens template.toList 0 1))

include hrejoined

theorem map_kind_rejoined : others.map PlacedToken.kind = tokens.map Token.kind := by
  rw [← map_kind_placeTokens tokens template.toList 0 1]
  rw [← List.forall₂_eq_eq_eq, List.forall₂_map_left_iff, List.forall₂_map_right_iff]
  exact hrejoined.imp fun token token' htoken => htoken.kind_eq.symm

include htokens

/-- Where the list is whole, the tokens of the template with the list in two parts are moved to
    those of the template. -/
theorem Document.counterpart_bareWith (template' : String) (hinserted : 0 < inserted)
    (hroomy : ∀ token ∈ others, token.Roomy) :
    (bareWith template' others).Counterpart (lifted first inserted replaced) True
      ((bare template).shift inserted) where
  token? i := by
    change Option.Rel _ others.toArray[i]? ((bare template).stream.tokens.map _)[i]?
    rw [Array.getElem?_map, stream_bare htokens, List.getElem?_toArray, List.getElem?_toArray]
    obtain ⟨hnone, hnone'⟩ | ⟨token, token', hsome, hsome', htoken⟩ :=
      cases_of_rel (rel_getElem? hrejoined i)
    · rw [hnone, hnone']
      exact .none
    · rw [hsome, hsome']
      exact .some (htoken.counterpart hinserted (hroomy token (List.mem_of_getElem? hsome)))
  tree_eq := by
    change (bare template).stream.tree = .build others
    rw [stream_bare htokens, ElementTree.build, ElementTree.build, map_kind_rejoined hrejoined,
      map_kind_placeTokens]
  script_eq := rfl

/-- A check says the same of the tokens of both templates where the list is whole. -/
theorem map_said_rejoined (template' : String) (hinserted : 0 < inserted)
    (hroomy : ∀ token ∈ others, token.Roomy) {rules : List (Rule × Severity)}
    (hrules : ∀ entry ∈ rules, entry.1.BuiltIn) :
    (Session.check (.bareWith template' others) rules).diagnostics.map
        (Diagnostic.said (rejoined first inserted replaced)) =
      (Session.check (.bare template) rules).diagnostics.map (Diagnostic.said id) := by
  have hlifted := Session.map_said_check
    (Document.counterpart_bareWith htokens hrejoined template' hinserted hroomy) hrules rfl rfl
  have hshifted := Session.map_said_check
    (Document.counterpart_shift (Document.roomy_bare template) inserted) hrules rfl rfl
  have hid : (· - inserted) ∘ (· + inserted) = id := funext fun place => Nat.add_sub_cancel ..
  rw [rejoined_eq, Diagnostic.said_comp, ← List.map_map, ← hlifted, hshifted, List.map_map,
    ← Diagnostic.said_comp, hid]

/-- Where the list is whole, rules compare the same. -/
theorem Rule.Parts.bareWith (template' : String) (hinserted : 0 < inserted)
    (hroomy : ∀ token ∈ others, token.Roomy) {k : Nat} (hk : k < others.length) {rule : Rule}
    {names names' : List String}
    (hparts : rule.Parts ((Document.bare template).viewAt k) names names') :
    rule.Parts ((Document.bareWith template' others).viewAt k) names names' := by
  have hlt : k < (Document.bareWith template' others).stream.tokens.size := hk
  have hlt' : k < (Document.bare template).stream.tokens.size := by
    rw [Document.stream_bare htokens, List.size_toArray, ← hrejoined.length_eq]
    exact hk
  have hlifted := (Document.counterpart_bareWith htokens hrejoined template' hinserted
    hroomy).viewAt hlt
  have hshifted := (Document.counterpart_shift (Document.roomy_bare template) inserted).viewAt hlt'
  refine hparts.congr ?_ ?_ fun element => ?_
  · rw [← hlifted.trackers_eq, hshifted.trackers_eq]
  · rw [← hlifted.owner?_eq, hshifted.owner?_eq]
  · rw [← hlifted.isCustomComponent_eq, hshifted.isCustomComponent_eq]

end Rejoined

namespace Parting

variable {template template' : String} {tokens : List Token} {k : Nat}
  {before between first second : List Char}
  (h : Parting template template' tokens k before between first second)

include h

/-- The place is in a list of attributes. -/
theorem inList {front back : List TokenKind} (hkinds : front ++ back = tokens.map Token.kind)
    (hlength : front.length = k + 1) : InList front back := by
  obtain ⟨_, _, name, value, escaped, _, htoken, -⟩ := h.last
  have hkind : (tokens.map Token.kind)[k]? = some (.attribute name value escaped) := by
    rw [List.getElem?_map, htoken]
    rfl
  rcases List.eq_nil_or_concat front with rfl | ⟨init, last, hfront⟩
  · cases hlength
  · rw [List.concat_eq_append] at hfront
    subst hfront
    have hinit : init.length = k := by simpa using hlength
    rw [List.append_assoc, List.singleton_append] at hkinds
    have hlast : last = .attribute name value escaped := by
      rw [← hkinds, ← hinit, List.getElem?_append_right (Nat.le_refl _), Nat.sub_self] at hkind
      exact Option.some.inj hkind
    refine Shape.Runs.inList ?_ (by rw [hlast]; rfl)
    rw [hkinds]
    exact runs_tokenize h.tokenize_eq

/-- The template with the list in two parts can be read. Up to two tokens between the parts, its
    tokens are those of the template where the list is whole. -/
theorem exists_parted :
    ∃ tokens' front ending opening back, tokenize template' = .ok tokens' ∧
      placeTokens tokens' template'.toList 0 1 = front ++ ending :: opening :: back ∧
      front.length = k + 1 ∧
      List.Forall₂ (PlacedToken.Rejoined (byteLength before) (Lexer.inserted first second)
          (byteLength between)) (front ++ back) (placeTokens tokens template.toList 0 1) ∧
      (Document.bareWith template' (front ++ back)).Parted front back ending opening
        (.bare template') := by
  obtain ⟨tokens', front, ending, opening, back, htokens', hplaced', hlength, hending, hopening,
    hrejoined⟩ := h.exists_tokenize
  have hkinds := map_kind_rejoined hrejoined
  have hstream := Document.stream_bare htokens'
  rw [hplaced'] at hstream
  refine ⟨tokens', front, ending, opening, back, htokens', hplaced', hlength, hrejoined, ?_⟩
  exact
    { tokens_eq := rfl
      tree_eq := rfl
      tokens_eq' := by rw [hstream]
      tree_eq' := by rw [hstream]
      script_eq := rfl
      lines_eq := rfl
      ending_kind := hending
      opening_kind := hopening
      runs := hkinds ▸ runs_tokenize h.tokenize_eq
      inList := h.inList (by rw [← hkinds, List.map_append]) (by rw [List.length_map, hlength]) }

end Parting

theorem Lexer.inserted_pos (first second : List Char) : 0 < inserted first second := by
  rw [inserted]
  omega

section Parted

variable {template template' : String} {tokens : List Token} {k : Nat}
  {before between first second : List Char} {front back : List PlacedToken}
  {ending opening : PlacedToken} (htokens : tokenize template = .ok tokens)
  (hlength : front.length = k + 1)
  (hrejoined : List.Forall₂ (PlacedToken.Rejoined (byteLength before)
    (Lexer.inserted first second) (byteLength between)) (front ++ back)
    (placeTokens tokens template.toList 0 1))
  (hparted : (Document.bareWith template' (front ++ back)).Parted front back ending opening
    (.bare template'))

include hparted

theorem roomy_of_parted : ∀ token ∈ front ++ back, token.Roomy := by
  intro token hm
  refine Document.roomy_bare template' token ?_
  rw [hparted.tokens_eq', List.mem_toArray]
  simp only [List.mem_append, List.mem_cons] at hm ⊢
  exact hm.imp_right fun hm => .inr (.inr hm)

include hlength hrejoined

/-- The names of the attributes in the two parts are those around the place. -/
theorem exists_names :
    ∃ before' first' second' after', PartedList front back before' first' second' after' ∧
      trailingNames ((tokens.map Token.kind).take (k + 1)) = first'.filterMap TokenKind.name? ∧
      leadingNames ((tokens.map Token.kind).drop (k + 1)) = second'.filterMap TokenKind.name? := by
  obtain ⟨before', first', second', after', hlist⟩ := hparted.exists_list
  have hkinds := map_kind_rejoined hrejoined
  have hfront : (front.map PlacedToken.kind).length = k + 1 := by rw [List.length_map, hlength]
  refine ⟨before', first', second', after', hlist, ?_, ?_⟩
  · rw [← hkinds, List.map_append, ← hfront, List.take_left, hlist.front_eq]
    exact trailingNames_append hlist.first_attributes rfl before'
  · rw [← hkinds, List.map_append, ← hfront, List.drop_left, hlist.back_eq]
    exact leadingNames_append hlist.second_attributes rfl after'

include htokens

/-- Checks of both templates say the same, in another order. -/
theorem perm_said_parted {rules : List (Rule × Severity)}
    (hrules : ∀ entry ∈ rules, entry.1.BuiltIn)
    (hparts : ∀ entry ∈ rules, entry.1.Parts ((Document.bare template).viewAt k)
      (trailingNames ((tokens.map Token.kind).take (k + 1)))
      (leadingNames ((tokens.map Token.kind).drop (k + 1)))) :
    ((Session.check (.bare template') rules).diagnostics.map (Diagnostic.said
        (rejoined (byteLength before) (Lexer.inserted first second) (byteLength between)))).Perm
      ((Session.check (.bare template) rules).diagnostics.map (Diagnostic.said id)) := by
  obtain ⟨_, _, _, _, hlist, hfirst, hsecond⟩ := exists_names hlength hrejoined hparted
  have hroomy := roomy_of_parted hparted
  have hinserted := Lexer.inserted_pos first second
  rw [← map_said_rejoined htokens hrejoined template' hinserted hroomy hrules]
  refine (hparted.perm_check hlist (fun entry hentry => ?_) hrules fun entry hentry => ?_).map _
  · rw [(hrules entry hentry).check_block_bare rfl, (hrules entry hentry).check_block_bare rfl]
  · rw [hlength, Nat.add_sub_cancel, ← hfirst, ← hsecond]
    refine (hparts entry hentry).bareWith htokens hrejoined template' hinserted hroomy ?_
    rw [List.length_append]
    omega

end Parted

/-! ### Results -/

/-- The attributes of an element in one list or in two that follow each other. The template can be
    read, with two more tokens between the parts, and the elements and their attributes are the
    same ones. If no rule compares an attribute with one of the other part alone, the same rules
    report the same messages on the tokens that correspond. -/
theorem lintTemplate_parted [Caching] (registry : Registry)
    (hrules : ∀ entry ∈ registry.rules, entry.1.BuiltIn) {template template' : String}
    {tokens : List Token} {k : Nat} {before between first second : List Char}
    (h : Parting template template' tokens k before between first second)
    (hparts : ∀ entry ∈ registry.rules, entry.1.Parts ((Document.bare template).viewAt k)
      (trailingNames ((tokens.map Token.kind).take (k + 1)))
      (leadingNames ((tokens.map Token.kind).drop (k + 1)))) (filename : String) :
    let rejoin := rejoined (byteLength before) (Lexer.inserted first second) (byteLength between)
    let result := ((Linter.ofRegistry registry).lintTemplate .start template filename).1
    let result' := ((Linter.ofRegistry registry).lintTemplate .start template' filename).1
    ∃ tokens' front ending opening back, tokenize template' = .ok tokens' ∧
      placeTokens tokens' template'.toList 0 1 = front ++ ending :: opening :: back ∧
      front.length = k + 1 ∧ ending.kind = .endAttributes ∧ opening.kind = .startAttributes ∧
      (front ++ back).map (fun token => (token.kind, rejoin token.start, rejoin token.stop)) =
        (placeTokens tokens template.toList 0 1).map
          (fun token => (token.kind, token.start, token.stop)) ∧
      (Document.bare template').stream.tree.nodes =
        (Document.bare template).stream.tree.nodes.map (Element.renumber (skip (k + 1))) ∧
      (result'.diagnostics.map (Diagnostic.said rejoin)).Perm
        (result.diagnostics.map (Diagnostic.said id)) := by
  intro rejoin result result'
  obtain ⟨tokens', front, ending, opening, back, htokens', hplaced', hlength, hrejoined, hparted⟩ :=
    h.exists_parted
  have hroomy := roomy_of_parted hparted
  have hinserted := Lexer.inserted_pos first second
  have hresult : result = _ := Linter.lintTemplate_ofRegistry registry template filename
  have hresult' : result' = _ := Linter.lintTemplate_ofRegistry registry template' filename
  refine ⟨tokens', front, ending, opening, back, htokens', hplaced', hlength,
    hparted.ending_kind, hparted.opening_kind, ?_, ?_, ?_⟩
  · rw [← List.forall₂_eq_eq_eq, List.forall₂_map_left_iff, List.forall₂_map_right_iff]
    refine ((List.forall₂_and_left _ _).2 ⟨hroomy, hrejoined⟩).imp ?_
    rintro token token' ⟨hroomy, htoken⟩
    exact htoken.extent_eq hinserted hroomy
  · have htree : (Document.bare template).stream.tree =
        (Document.bareWith template' (front ++ back)).stream.tree :=
      (Document.counterpart_bareWith h.tokenize_eq hrejoined template' hinserted hroomy).tree_eq
    rw [hparted.nodes_eq, hlength, htree]
  · rw [hresult, hresult']
    refine (List.Perm.map _ (List.mergeSort_perm _ _)).trans
      (.trans ?_ (List.Perm.map _ (List.mergeSort_perm _ _).symm))
    exact perm_said_parted h.tokenize_eq hlength hrejoined hparted hrules hparts

/-- The tokens of an element with a key that is allowed and an attribute that is given twice. -/
def keyedTokens : List Token :=
  [⟨.tag "template", ⟨1, 1⟩, ⟨1, 9⟩⟩, ⟨.startAttributes, ⟨1, 9⟩, ⟨1, 10⟩⟩,
    ⟨.attribute "v-for" none true, ⟨1, 10⟩, ⟨1, 15⟩⟩,
    ⟨.attribute "key" none true, ⟨1, 16⟩, ⟨1, 19⟩⟩,
    ⟨.attribute "b" none true, ⟨1, 20⟩, ⟨1, 21⟩⟩, ⟨.attribute "b" none true, ⟨1, 22⟩, ⟨1, 23⟩⟩,
    ⟨.endAttributes, ⟨1, 23⟩, ⟨1, 24⟩⟩, ⟨.eos, ⟨1, 24⟩, ⟨1, 24⟩⟩]

theorem lintTemplate_parted_key :
    let registry : Registry := ⟨[{ rule := .noDuplicateAttributes {} }, { rule := .noTemplateKey },
      { rule := .requireExact }]⟩
    let report (move : Nat → Nat) (template : String) :=
      ((Linter.ofRegistry registry).lintTemplate .start template "a.pug").1.diagnostics.map
        (Diagnostic.said move)
    let names := trailingNames ((keyedTokens.map Token.kind).take 4)
    let names' := leadingNames ((keyedTokens.map Token.kind).drop 4)
    (∀ entry ∈ registry.rules, entry.1.BuiltIn) ∧
      Parting "template(v-for key b b)" "template(v-for key)(b b)" keyedTokens 3
        "template(v-for key".toList [' '] [] [] ∧
      names = ["v-for", "key"] ∧ names' = ["b", "b"] ∧
      (∀ entry ∈ registry.rules,
        entry.1.Parts ((Document.bare "template(v-for key b b)").viewAt 3) names names') ∧
      report id "template(v-for key b b)" =
        [("vue/no-duplicate-attributes", .error, some "duplicateAttribute", 21, 22)] ∧
      report (rejoined 18 2 1) "template(v-for key)(b b)" =
        [("vue/no-duplicate-attributes", .error, some "duplicateAttribute", 21, 22)] := by
  intro registry report names names'
  have hrules : ∀ entry ∈ registry.rules, entry.1.BuiltIn :=
    List.forall_mem_cons.2 ⟨.noDuplicateAttributes {}, List.forall_mem_cons.2 ⟨.noTemplateKey,
      List.forall_mem_cons.2 ⟨.requireExact, nofun⟩⟩⟩
  have hparting : Parting "template(v-for key b b)" "template(v-for key)(b b)" keyedTokens 3
      "template(v-for key".toList [' '] [] [] :=
    { tokenize_eq := by decide +kernel
      last := ⟨"template(v-for ".toList, "key".toList, "key", none, true, by decide +kernel,
        by decide +kernel, fun _ => rfl⟩
      next := ⟨"b", none, true, ⟨1, 21⟩, by decide +kernel⟩
      text_eq := ⟨"b b)".toList, by decide +kernel, by decide +kernel⟩
      first_separators := nofun
      second_separators := nofun }
  have hnames : names = ["v-for", "key"] := by decide +kernel
  have hnames' : names' = ["b", "b"] := by decide +kernel
  have hparts : ∀ entry ∈ registry.rules,
      entry.1.Parts ((Document.bare "template(v-for key b b)").viewAt 3) names names' := by
    intro entry _
    rw [hnames, hnames']
    refine ⟨fun coexistence _ before raw behind hraw hfirst => ?_, fun _ _ => ?_,
      fun _ element _ => ?_⟩
    · obtain rfl : raw = "b" := by
        have hmem : raw ∈ ["b", "b"] := hraw ▸ List.mem_append_right _ List.mem_cons_self
        simpa using hmem
      have hnone : ["v-for", "key"].any (Rule.duplicates coexistence "b") = false := by
        obtain ⟨classes, styles⟩ := coexistence
        cases classes <;> cases styles <;> decide +kernel
      rw [hnone] at hfirst
      cases hfirst
    · decide +kernel
    · cases View.isCustomComponent _ element <;> decide +kernel
  have hjoined : report id "template(v-for key b b)" =
      [("vue/no-duplicate-attributes", .error, some "duplicateAttribute", 21, 22)] := by
    decide +kernel
  obtain ⟨_, _, _, _, _, -, -, -, -, -, -, -, hparted⟩ :=
    lintTemplate_parted registry hrules hparting hparts "a.pug"
  refine ⟨hrules, hparting, hnames, hnames', hparts, hjoined, List.perm_singleton.1 ?_⟩
  rw [← hjoined]
  exact hparted

/-- The tokens of an element with an attribute that is given twice. -/
def twiceTokens : List Token :=
  [⟨.tag "div", ⟨1, 1⟩, ⟨1, 4⟩⟩, ⟨.startAttributes, ⟨1, 4⟩, ⟨1, 5⟩⟩,
    ⟨.attribute "a" none true, ⟨1, 5⟩, ⟨1, 6⟩⟩, ⟨.attribute "a" none true, ⟨1, 7⟩, ⟨1, 8⟩⟩,
    ⟨.endAttributes, ⟨1, 8⟩, ⟨1, 9⟩⟩, ⟨.eos, ⟨1, 9⟩, ⟨1, 9⟩⟩]

/-- The tokens of an element with a key that is allowed. -/
def allowedTokens : List Token :=
  [⟨.tag "template", ⟨1, 1⟩, ⟨1, 9⟩⟩, ⟨.startAttributes, ⟨1, 9⟩, ⟨1, 10⟩⟩,
    ⟨.attribute "v-for" none true, ⟨1, 10⟩, ⟨1, 15⟩⟩,
    ⟨.attribute "key" none true, ⟨1, 16⟩, ⟨1, 19⟩⟩,
    ⟨.endAttributes, ⟨1, 19⟩, ⟨1, 20⟩⟩, ⟨.eos, ⟨1, 20⟩, ⟨1, 20⟩⟩]

/-- Duplicates and keys are sought in one list at a time: a duplicate of an attribute of the other
    part is not reported, and a `v-for` does not allow the key of the other part. -/
theorem lintTemplate_parted_fails :
    let registry : Registry :=
      ⟨[{ rule := .noDuplicateAttributes {} }, { rule := .noTemplateKey }]⟩
    let report (template : String) :=
      ((Linter.ofRegistry registry).lintTemplate .start template "a.pug").1.diagnostics.map
        (Diagnostic.said id)
    (∀ entry ∈ registry.rules, entry.1.BuiltIn) ∧
    (Parting "div(a a)" "div(a)(a)" twiceTokens 2 "div(a".toList [' '] [] [] ∧
      report "div(a a)" =
        [("vue/no-duplicate-attributes", .error, some "duplicateAttribute", 6, 7)] ∧
      report "div(a)(a)" = []) ∧
    (Parting "template(v-for key)" "template(v-for)(key)" allowedTokens 2
        "template(v-for".toList [' '] [] [] ∧
      report "template(v-for key)" = [] ∧
      report "template(v-for)(key)" =
        [("vue/no-template-key", .error, some "disallow", 16, 19)]) := by
  intro registry report
  refine ⟨List.forall_mem_cons.2 ⟨.noDuplicateAttributes {}, List.forall_mem_cons.2
    ⟨.noTemplateKey, nofun⟩⟩, ⟨?_, by decide +kernel, by decide +kernel⟩,
    ⟨?_, by decide +kernel, by decide +kernel⟩⟩
  · exact
      { tokenize_eq := by decide +kernel
        last := ⟨"div(".toList, "a".toList, "a", none, true, by decide +kernel,
          by decide +kernel, fun _ => rfl⟩
        next := ⟨"a", none, true, ⟨1, 8⟩, by decide +kernel⟩
        text_eq := ⟨"a)".toList, by decide +kernel, by decide +kernel⟩
        first_separators := nofun
        second_separators := nofun }
  · exact
      { tokenize_eq := by decide +kernel
        last := ⟨"template(".toList, "v-for".toList, "v-for", none, true, by decide +kernel,
          by decide +kernel, fun _ => rfl⟩
        next := ⟨"key", none, true, ⟨1, 19⟩, by decide +kernel⟩
        text_eq := ⟨"key)".toList, by decide +kernel, by decide +kernel⟩
        first_separators := nofun
        second_separators := nofun }

end PugLint
