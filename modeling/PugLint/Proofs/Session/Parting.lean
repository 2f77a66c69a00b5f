import PugLint.Proofs.Linter.Spelling
import PugLint.Proofs.Rule.Parting

/-!
# Checks of a list in two parts

Two documents with the same tokens, except that in one of them a list of attributes is closed and
opened again. What is known at a token is the same up to numbers, and of the attributes in the list
those of its own part are known. Rules are asked the same things at the tokens that both have.

* `Trackers.Renumbered`: what is known, with other numbers of tokens and fewer attributes;
* `Document.Parted`: a document and the same one with a list in two parts;
* `PartedList`: the list, its parts, and what is known of it;
* `Document.Parted.trackers_viewAt`: what is known at a token that both documents have.
-/

namespace PugLint

variable {number : Nat → Nat}

/-! ### Chains -/

/-- A chain whose tokens have other numbers. -/
def Chain.renumber (number : Nat → Nat) (chain : Chain) : Chain :=
  { chain with start := number chain.start }

/-- The part of an element in a chain, with other numbers of tokens. -/
def Conditional.renumber (number : Nat → Nat) : Conditional → Conditional
  | opens token condition => opens (number token) condition
  | continues condition => continues condition
  | concludes => concludes
  | plain => plain

/-- The open chains with other numbers of tokens. -/
def Chains.renumber (number : Nat → Nat) (chains : Chains) : Chains :=
  ⟨chains.entries.map (Option.map (Chain.renumber number))⟩

theorem Conditional.ofAttributesFrom_renumber (found : Conditional)
    (entries : List (Nat × String × Option String)) :
    ofAttributesFrom (found.renumber number) (entries.map fun entry => (number entry.1, entry.2)) =
      (ofAttributesFrom found entries).renumber number := by
  fun_induction ofAttributesFrom found entries with
  | case1 => rfl
  | case2 found token name value others hname => simp [ofAttributesFrom, hname, renumber]
  | case3 token name value others condition hname ih =>
    rw [← ih]
    simp [ofAttributesFrom, hname, renumber]
  | case4 found token name value others hname hfound ih =>
    rw [← ih]
    cases found with
    | continues condition => exact absurd rfl (hfound condition)
    | _ => simp [ofAttributesFrom, hname, renumber]
  | case5 token name value others hname ih =>
    rw [← ih]
    simp [ofAttributesFrom, hname, renumber]
  | case6 found token name value others hif helseIf _ helse ih =>
    rw [← ih, List.map_cons, ofAttributesFrom.eq_def]
    dsimp only
    split
    · exact absurd ‹_› hif
    · exact absurd ‹_› helseIf
    · exact absurd ‹_› helseIf
    · rename_i hname hplain
      cases found with
      | plain => exact absurd rfl (helse hname)
      | _ => cases hplain
    · rfl

theorem Conditional.ofTokens_renumber {tokens tokens' : Array PlacedToken}
    (htokens : ∀ i, tokens'[number i]? = tokens[i]?) (attributes : List Nat) :
    ofTokens tokens' (attributes.map number) = (ofTokens tokens attributes).renumber number := by
  rw [ofTokens, ofTokens, ← ofAttributesFrom_renumber, List.filterMap_map, List.map_filterMap]
  refine congrArg (ofAttributesFrom .plain <| attributes.filterMap ·) (funext fun i => ?_)
  rw [Function.comp_apply, htokens, Option.map_map]
  rfl

theorem Conditional.after_renumber (conditional : Conditional) (before : Option Chain) :
    (conditional.renumber number).after (before.map (Chain.renumber number)) =
      (conditional.after before).map (Chain.renumber number) := by
  cases conditional <;> cases before <;> rfl

theorem Chains.entry?_renumber (chains : Chains) (depth : Nat) :
    Chains.entry? (chains.renumber number) depth =
      (chains.entry? depth).map (Chain.renumber number) := by
  rw [Chains.entry?, Chains.entry?, renumber, List.getElem?_map]
  rcases chains.entries[depth]? with _ | _ | chain <;> rfl

theorem Chains.enter_renumber (chains : Chains) (depth : Nat) (conditional : Conditional) :
    (chains.renumber number).enter depth (conditional.renumber number) =
      (chains.enter depth conditional).renumber number := by
  rw [enter, enter, entry?_renumber, Conditional.after_renumber]
  simp only [renumber, List.map_append, List.map_take, List.length_take, List.length_map,
    List.map_replicate, Option.map_none, List.map_cons, List.map_nil]

/-! ### What is known -/

/-- What is known, with other numbers of tokens. Of the attributes that are known, some are
    kept. -/
structure Trackers.Renumbered (number : Nat → Nat) (keep : Nat → Bool)
    (trackers trackers' : Trackers) : Prop where
  currentTag_eq : trackers'.currentTag = trackers.currentTag
  scope_eq : trackers'.scope = (trackers.scope.filter keep).map number
  scopeOpen_eq : trackers'.scopeOpen = trackers.scopeOpen
  chains_eq : trackers'.chains = trackers.chains.renumber number
  chainBefore_eq : trackers'.chainBefore = trackers.chainBefore.map (Chain.renumber number)

namespace Trackers.Renumbered

variable {keep : Nat → Bool} {trackers trackers' : Trackers}
  (h : trackers.Renumbered number keep trackers')

include h

/-- A token changes what is known alike, if it is kept. -/
theorem afterToken {i : Nat} (hi : keep i = true) (kind : TokenKind) :
    (trackers.afterToken i kind).Renumbered number keep
      (trackers'.afterToken (number i) kind) := by
  obtain ⟨hcurrent, hscope, hopen, hchains, hbefore⟩ := h
  cases kind with
  | startAttributes => exact ⟨hcurrent, rfl, rfl, hchains, hbefore⟩
  | endAttributes => exact ⟨hcurrent, hscope, rfl, hchains, hbefore⟩
  | «attribute» name value escaped =>
    rw [Trackers.afterToken, Trackers.afterToken, hopen]
    split
    · refine ⟨hcurrent, ?_, rfl, hchains, hbefore⟩
      simp only [hscope, List.filter_append, List.map_append, List.filter_cons_of_pos hi,
        List.filter_nil, List.map_cons, List.map_nil]
    · exact ⟨hcurrent, hscope, hopen, hchains, hbefore⟩
  | _ => exact ⟨hcurrent, hscope, hopen, hchains, hbefore⟩

/-- An element changes what is known alike. -/
theorem afterElement (id : Nat) (element : Element) (conditional : Conditional) :
    (trackers.afterElement id element conditional).Renumbered number keep
      (trackers'.afterElement id (element.renumber number) (conditional.renumber number)) where
  currentTag_eq := rfl
  scope_eq := h.scope_eq
  scopeOpen_eq := h.scopeOpen_eq
  chains_eq := by
    simp only [Trackers.afterElement, h.chains_eq]
    exact Chains.enter_renumber ..
  chainBefore_eq := by
    simp only [Trackers.afterElement, h.chains_eq]
    exact Chains.entry?_renumber ..

theorem update {tokens tokens' : Array PlacedToken} {tree tree' : ElementTree} {i : Nat}
    (htokens : ∀ i, tokens'[number i]? = tokens[i]?)
    (hnodes : tree'.nodes = tree.nodes.map (Element.renumber number))
    (hat : tree'.elementAt? (number i) = tree.elementAt? i) (hi : keep i = true) :
    (trackers.update tokens tree i).Renumbered number keep
      (trackers'.update tokens' tree' (number i)) := by
  have hafter := h.afterToken hi ((tokens[i]?.map PlacedToken.kind).getD .eos)
  simp only [Trackers.update, htokens, hat, hnodes, Array.getElem?_map]
  cases tree.elementAt? i with
  | none => exact hafter
  | some id =>
    simp only
    cases tree.nodes[id]? with
    | none => exact hafter
    | some element =>
      have hofTokens := Conditional.ofTokens_renumber htokens element.attributes
      simp only [Option.map_some]
      rw [show (element.renumber number).attributes = element.attributes.map number from rfl,
        hofTokens]
      exact hafter.afterElement id element _

end Trackers.Renumbered

/-! ### Lists -/

/-- In a list of attributes, the attributes so far are known. -/
theorem Trackers.scope_behind {tokens : List PlacedToken}
    {before attributes rest : List TokenKind}
    (hkinds : tokens.map PlacedToken.kind = before ++ .startAttributes :: (attributes ++ rest))
    (hattributes : ∀ kind ∈ attributes, kind.attribute?.isSome = true) (tree : ElementTree) :
    (behind tokens.toArray tree (before.length + 1 + attributes.length)).scope =
        List.range' (before.length + 1) attributes.length ∧
      (behind tokens.toArray tree (before.length + 1 + attributes.length)).scopeOpen = true := by
  have htoken (n : Nat) (kind : TokenKind)
      (hn : (before ++ .startAttributes :: (attributes ++ rest))[n]? = some kind) :
      ∃ token, tokens[n]? = some token ∧ token.kind = kind := by
    rwa [← hkinds, List.getElem?_map, Option.map_eq_some_iff] at hn
  induction attributes using List.reverseRecOn generalizing rest with
  | nil =>
    obtain ⟨token, htoken, hkind⟩ := htoken before.length .startAttributes (by simp)
    obtain ⟨-, hscope, hopen⟩ := (behind tokens.toArray tree before.length).update_fields tree
      htoken
    rw [hkind] at hscope hopen
    exact ⟨hscope, hopen⟩
  | append_singleton attributes kind ih =>
    obtain ⟨hothers, hlast⟩ := List.forall_mem_append.1 hattributes
    obtain ⟨name, value, escaped, rfl⟩ :=
      TokenKind.exists_eq_attribute (hlast kind List.mem_cons_self)
    rw [List.append_assoc, List.singleton_append] at hkinds htoken
    obtain ⟨hscope, hopen⟩ := ih hkinds hothers htoken
    obtain ⟨token, htoken, hkind⟩ := htoken (before.length + 1 + attributes.length)
      (.attribute name value escaped) (by simp [Nat.add_assoc, Nat.add_comm 1])
    obtain ⟨-, hscope', hopen'⟩ := (behind tokens.toArray tree
      (before.length + 1 + attributes.length)).update_fields tree htoken
    rw [hkind, afterToken, hopen, if_pos rfl] at hscope' hopen'
    rw [List.length_append, List.length_singleton, ← Nat.add_assoc, behind, hscope', hopen',
      hscope, List.range'_concat, Nat.one_mul]
    exact ⟨rfl, rfl⟩

/-- Whether the token with the number `i`, where two more tokens stand behind the first `n`, knows
    the attribute with the number `j` in front of it. -/
def inPart (n i j : Nat) : Bool :=
  i < n || n ≤ j

theorem inPart_of_lt {n i : Nat} (h : i < n) : inPart n i = fun _ => true := by
  funext j
  rw [inPart, decide_eq_true h, Bool.true_or]

theorem inPart_of_le {n i : Nat} (h : n ≤ i) : inPart n i = fun j => decide (n ≤ j) := by
  funext j
  rw [inPart, decide_eq_false (Nat.not_lt.2 h), Bool.false_or]

/-! ### Documents -/

/-- A document, and the same one with a list of attributes in two parts: behind the first tokens,
    there is the end of a list and the start of another one. -/
structure Document.Parted (front back : List PlacedToken) (ending opening : PlacedToken)
    (document document' : Document) : Prop where
  tokens_eq : document.stream.tokens = (front ++ back).toArray
  tree_eq : document.stream.tree = .build (front ++ back)
  tokens_eq' : document'.stream.tokens = (front ++ ending :: opening :: back).toArray
  tree_eq' : document'.stream.tree = .build (front ++ ending :: opening :: back)
  script_eq : document'.script = document.script
  lines_eq : document'.lines = document.lines
  ending_kind : ending.kind = .endAttributes
  opening_kind : opening.kind = .startAttributes
  runs : Shape.Runs .start ((front ++ back).map PlacedToken.kind) .stop
  inList : InList (front.map PlacedToken.kind) (back.map PlacedToken.kind)

/-- The list that is in two parts: what stands in front of it, its parts, and what stands
    behind it. -/
structure PartedList (front back : List PlacedToken)
    (before first second after : List TokenKind) : Prop where
  front_eq : front.map PlacedToken.kind = before ++ .startAttributes :: first
  back_eq : back.map PlacedToken.kind = second ++ .endAttributes :: after
  first_attributes : ∀ kind ∈ first, kind.attribute?.isSome = true
  second_attributes : ∀ kind ∈ second, kind.attribute?.isSome = true

namespace PartedList

variable {front back : List PlacedToken} {before first second after : List TokenKind}
  (h : PartedList front back before first second after)

include h

theorem length_eq : before.length + 1 + first.length = front.length := by
  have := congrArg List.length h.front_eq
  simp only [List.length_map, List.length_append, List.length_cons] at this
  omega

theorem pred_length_add : front.length - 1 + 1 = front.length := by
  have := h.length_eq
  omega

theorem kinds_eq : (front ++ back).map PlacedToken.kind =
    before ++ .startAttributes :: (first ++ (second ++ .endAttributes :: after)) := by
  rw [List.map_append, h.front_eq, h.back_eq, List.append_assoc, List.cons_append]

theorem kind_end : ((front ++ back).map PlacedToken.kind)[front.length + second.length]? =
    some .endAttributes := by
  rw [List.map_append, List.getElem?_append_right (by rw [List.length_map]; omega),
    List.length_map, Nat.add_sub_cancel_left, h.back_eq,
    List.getElem?_append_right (Nat.le_refl _), Nat.sub_self]
  rfl

theorem end_lt : front.length + second.length < (front ++ back).length := by
  have := (List.getElem?_eq_some_iff.1 h.kind_end).1
  rwa [List.length_map] at this

theorem kind_second {m : Nat} (hm : m < second.length) :
    ((front ++ back).map PlacedToken.kind)[front.length + m]? = second[m]? := by
  rw [List.map_append, List.getElem?_append_right (by rw [List.length_map]; omega),
    List.length_map, Nat.add_sub_cancel_left, h.back_eq, List.getElem?_append_left hm]

/-- The attributes that are known behind so many of the second part. -/
theorem scope_behind {m : Nat} (hm : m ≤ second.length) (tree : ElementTree) :
    (Trackers.behind (front ++ back).toArray tree (front.length + m)).scope =
        List.range' (before.length + 1) first.length ++ List.range' front.length m ∧
      (Trackers.behind (front ++ back).toArray tree (front.length + m)).scopeOpen = true := by
  have hkinds : (front ++ back).map PlacedToken.kind = before ++ .startAttributes ::
      (first ++ second.take m ++ (second.drop m ++ .endAttributes :: after)) := by
    rw [h.kinds_eq, List.append_assoc, ← List.append_assoc (second.take m),
      List.take_append_drop]
  have hlength := h.length_eq
  have hscope := Trackers.scope_behind hkinds (List.forall_mem_append.2 ⟨h.first_attributes,
    fun kind hm => h.second_attributes kind (List.mem_of_mem_take hm)⟩) tree
  rwa [List.length_append, List.length_take_of_le hm, ← List.range'_append_1, ← Nat.add_assoc,
    hlength] at hscope

/-- The attributes of the second part among those that are known. -/
theorem filter_le (m : Nat) : (List.range' (before.length + 1) first.length ++
    List.range' front.length m).filter (fun i => front.length ≤ i) =
      List.range' front.length m := by
  have hlength := h.length_eq
  have hfirst : (List.range' (before.length + 1) first.length).filter
      (fun i => front.length ≤ i) = [] := by
    refine List.filter_eq_nil_iff.2 fun i hi => ?_
    have := List.mem_range'_1.1 hi
    simp only [decide_eq_true_eq]
    omega
  rw [List.filter_append, hfirst, List.nil_append]
  exact List.filter_eq_self.2 fun i hi => decide_eq_true (List.mem_range'_1.1 hi).1

/-- The names of the attributes of the first part. -/
theorem names_first {view : View} (hview : view.tokens = (front ++ back).toArray) :
    (List.range' (before.length + 1) first.length).filterMap view.name? =
      first.filterMap TokenKind.name? := by
  have hnames := filterMap_range' TokenKind.name? (before ++ [.startAttributes]) first
    (second ++ .endAttributes :: after)
  rw [List.append_assoc, List.singleton_append, ← h.kinds_eq, List.length_append,
    List.length_singleton] at hnames
  rw [← hnames]
  exact congrArg (List.filterMap · _) (funext (view.name?_eq_bind hview))

/-- The names of some attributes at the front of the second part. -/
theorem names_second {view : View} (hview : view.tokens = (front ++ back).toArray) {m : Nat}
    (hm : m ≤ second.length) :
    (List.range' front.length m).filterMap view.name? =
      (second.take m).filterMap TokenKind.name? := by
  have hnames := filterMap_range' TokenKind.name? (before ++ .startAttributes :: first)
    (second.take m) (second.drop m ++ .endAttributes :: after)
  rw [← List.append_assoc (second.take m), List.take_append_drop, List.append_assoc,
    List.cons_append, ← h.kinds_eq, List.length_take_of_le hm, ← h.front_eq,
    List.length_map] at hnames
  rw [← hnames]
  exact congrArg (List.filterMap · _) (funext (view.name?_eq_bind hview))

/-- Behind the list, a token in another list knows no attributes of this one. -/
theorem le_of_mem_scope (hruns : Shape.Runs .start ((front ++ back).map PlacedToken.kind) .stop)
    {i j : Nat} (hi : front.length + second.length < i) {kind : TokenKind}
    (hkind : ((front ++ back).map PlacedToken.kind)[i]? = some kind)
    (hlisted : kind.attribute?.isSome = true ∨ kind = .endAttributes) {tree : ElementTree}
    (hj : j ∈ (Trackers.behind (front ++ back).toArray tree (i + 1)).scope) :
    front.length ≤ j := by
  obtain ⟨s, t, hfront, hstep, -⟩ := hruns.exists_at hkind
  have hs : s.mode = .list := by
    rcases hlisted with hattribute | rfl
    · obtain ⟨name, value, escaped, rfl⟩ := TokenKind.exists_eq_attribute hattribute
      exact hstep.mode_of_attribute
    · cases hstep with
      | plain hplain => cases hplain
      | endAttributes => rfl
  obtain ⟨others, attributes, hothers, hattributes⟩ :=
    hfront.exists_startAttributes (by simp [Shape.State.start]) hs
  have hlt := (List.getElem?_eq_some_iff.1 hkind).1
  have hlength : others.length + 1 + attributes.length = i := by
    have := congrArg List.length hothers
    simp only [List.length_take, List.length_append, List.length_cons] at this
    omega
  have hkinds : (front ++ back).map PlacedToken.kind = others ++
      .startAttributes :: (attributes ++ ((front ++ back).map PlacedToken.kind).drop i) := by
    rw [← List.cons_append, ← List.append_assoc, ← hothers, List.take_append_drop]
  -- The end of this list is in front of the start of the other one.
  have hothers_lt : front.length + second.length < others.length := by
    have hend := h.kind_end
    rw [← List.getElem?_take_of_lt hi, hothers] at hend
    by_contra hge
    rw [List.getElem?_append_right (by omega)] at hend
    rcases Nat.eq_or_lt_of_le (Nat.not_lt.1 hge) with heq | hgt
    · rw [heq, Nat.sub_self] at hend
      cases hend
    · obtain ⟨m, hm⟩ : ∃ m, front.length + second.length - others.length = m + 1 :=
        ⟨front.length + second.length - others.length - 1, by omega⟩
      rw [hm, List.getElem?_cons_succ] at hend
      exact absurd (hattributes _ (List.mem_of_getElem? hend)) (by simp [TokenKind.attribute?])
  obtain ⟨hscope, -⟩ := Trackers.scope_behind hkinds hattributes tree
  rw [hlength] at hscope
  obtain ⟨token, htoken, rfl⟩ : ∃ token, (front ++ back)[i]? = some token ∧ token.kind = kind := by
    rwa [List.getElem?_map, Option.map_eq_some_iff] at hkind
  rw [Trackers.behind, (Trackers.update_fields _ tree htoken).2.1] at hj
  rcases (Trackers.mem_scope_afterToken hj).1 with hj | rfl
  · rw [hscope] at hj
    have := List.mem_range'_1.1 hj
    omega
  · omega

end PartedList

namespace Document.Parted

variable {front back : List PlacedToken} {ending opening : PlacedToken}
  {document document' : Document} (h : document.Parted front back ending opening document')

include h

theorem token?_skip (i : Nat) :
    document'.stream.tokens[skip front.length i]? = document.stream.tokens[i]? := by
  rw [h.tokens_eq, h.tokens_eq', List.getElem?_toArray, List.getElem?_toArray, skip]
  split
  · rw [List.getElem?_append_left ‹_›, List.getElem?_append_left ‹_›]
  · rw [List.getElem?_append_right (by omega), List.getElem?_append_right (by omega),
      show i + 2 - front.length = i - front.length + 1 + 1 by omega, List.getElem?_cons_succ,
      List.getElem?_cons_succ]

theorem kinds_eq' : (front ++ ending :: opening :: back).map PlacedToken.kind =
    front.map PlacedToken.kind ++
      .endAttributes :: .startAttributes :: back.map PlacedToken.kind := by
  rw [List.map_append, List.map_cons, List.map_cons, h.ending_kind, h.opening_kind]

theorem nodes_eq : document'.stream.tree.nodes =
    document.stream.tree.nodes.map (Element.renumber (skip front.length)) := by
  rw [h.tree_eq, h.tree_eq', ElementTree.build, ElementTree.build, h.kinds_eq', List.map_append,
    h.inList.nodes_parted, List.length_map]

theorem owner?_eq (i : Nat) :
    document'.stream.tree.owner? (skip front.length i) = document.stream.tree.owner? i := by
  have howner := h.inList.owner?_parted i
  rwa [List.length_map, ← h.kinds_eq', ← List.map_append, ← ElementTree.build,
    ← ElementTree.build, ← h.tree_eq, ← h.tree_eq'] at howner

theorem elementAt?_eq (i : Nat) :
    document'.stream.tree.elementAt? (skip front.length i) =
      document.stream.tree.elementAt? i := by
  have hat := h.inList.elementAt?_parted i
  rwa [List.length_map, ← h.kinds_eq', ← List.map_append, ← ElementTree.build,
    ← ElementTree.build, ← h.tree_eq, ← h.tree_eq'] at hat

theorem elementAt?_between {i : Nat} (hi : i = front.length ∨ i = front.length + 1) :
    document'.stream.tree.elementAt? i = none := by
  rw [h.tree_eq', ElementTree.build, h.kinds_eq']
  exact h.inList.elementAt?_between (by rwa [List.length_map])

/-- What is known behind the tokens in front of the place. -/
theorem behind_front {m : Nat} (hm : m ≤ front.length) :
    (Trackers.behind document.stream.tokens document.stream.tree m).Renumbered
      (skip front.length) (fun _ => true)
      (Trackers.behind document'.stream.tokens document'.stream.tree m) := by
  induction m with
  | zero => exact ⟨rfl, rfl, rfl, rfl, rfl⟩
  | succ m ih =>
    have hskip : skip front.length m = m := if_pos hm
    have hstep := (ih (Nat.le_of_succ_le hm)).update h.token?_skip h.nodes_eq
      (h.elementAt?_eq m) rfl
    rw [hskip] at hstep
    exact hstep

theorem kind_between {i : Nat} (hi : i = front.length ∨ i = front.length + 1) :
    document'.stream.tokens[i]?.map PlacedToken.kind =
      some (if i = front.length then .endAttributes else .startAttributes) := by
  rw [h.tokens_eq', List.getElem?_toArray, ← List.getElem?_map, h.kinds_eq']
  rcases hi with rfl | rfl <;> simp

/-- What a token between the parts changes. -/
theorem update_between {i : Nat} (hi : i = front.length ∨ i = front.length + 1)
    (trackers : Trackers) :
    trackers.update document'.stream.tokens document'.stream.tree i =
      trackers.afterToken i (if i = front.length then .endAttributes else .startAttributes) := by
  rw [Trackers.update, h.kind_between hi, h.elementAt?_between hi]
  rfl

/-- The list that is in two parts. -/
theorem exists_list :
    ∃ before first second after, PartedList front back before first second after := by
  obtain ⟨⟨before, attributes, last, hfront, hfirst⟩, second, after, hback, hsecond⟩ := h.inList
  exact ⟨before, attributes ++ [last], second, after, ⟨hfront, hback, hfirst, hsecond⟩⟩

/-- What is known behind the other tokens. -/
theorem behind_back {m : Nat} (hm : front.length ≤ m) :
    (Trackers.behind document.stream.tokens document.stream.tree m).Renumbered
      (skip front.length) (fun i => front.length ≤ i)
      (Trackers.behind document'.stream.tokens document'.stream.tree (m + 2)) := by
  induction m, hm using Nat.le_induction with
  | base =>
    obtain ⟨before, first, second, after, hlist⟩ := h.exists_list
    obtain ⟨hcurrent, -, -, hchains, hbefore⟩ := h.behind_front (Nat.le_refl _)
    obtain ⟨hscope, hopen⟩ := hlist.scope_behind (Nat.zero_le _) document.stream.tree
    rw [← h.tokens_eq, Nat.add_zero] at hscope hopen
    rw [Trackers.behind, Trackers.behind, h.update_between (.inr rfl), h.update_between (.inl rfl),
      if_pos rfl, if_neg (by omega)]
    refine ⟨hcurrent, ?_, hopen.symm, hchains, hbefore⟩
    -- The list that is known is a new one.
    rw [hscope, hlist.filter_le]
    rfl
  | succ m hm ih =>
    have hskip : skip front.length m = m + 2 := if_neg (Nat.not_lt.2 hm)
    have hstep := ih.update h.token?_skip h.nodes_eq (h.elementAt?_eq m) (decide_eq_true hm)
    rw [hskip] at hstep
    exact hstep

/-! ### Views -/

/-- What is known at a token, with the attributes of its part of the list. -/
theorem trackers_viewAt (i : Nat) :
    (document.viewAt i).trackers.Renumbered (skip front.length) (inPart front.length i)
      (document'.viewAt (skip front.length i)).trackers := by
  by_cases hi : i < front.length
  · rw [inPart_of_lt hi, skip, if_pos hi]
    exact h.behind_front hi
  · rw [inPart_of_le (Nat.not_lt.1 hi), skip, if_neg hi]
    exact h.behind_back (Nat.le_succ_of_le (Nat.not_lt.1 hi))

theorem renumbered_viewAt (i : Nat) :
    (document.viewAt i).Renumbered (skip front.length)
      (document'.viewAt (skip front.length i)) where
  token? := h.token?_skip
  nodes_eq := h.nodes_eq
  script_eq := h.script_eq
  index_eq := rfl
  elementAt?_eq := h.elementAt?_eq i
  ownerId?_eq := h.owner?_eq i
  conditions_eq := by
    rw [(h.trackers_viewAt i).chainBefore_eq, Option.map_map]
    rfl

/-- Rules are asked the same. -/
theorem events_viewAt (i : Nat) :
    (document'.viewAt (skip front.length i)).events = (document.viewAt i).events := by
  have hview := h.renumbered_viewAt i
  rw [View.events, View.events, hview.elementAt?_eq, hview.token_eq]

theorem findingsAt_skip {i : Nat} {rule : Rule}
    (hrule : ∀ event ∈ (document.viewAt i).events,
      rule.check event (document'.viewAt (skip front.length i)) =
        rule.check event (document.viewAt i)) :
    rule.findingsAt (document'.viewAt (skip front.length i)) =
      rule.findingsAt (document.viewAt i) := by
  rw [Rule.findingsAt, Rule.findingsAt, h.events_viewAt]
  exact List.flatMap_congr hrule

/-- Between the parts, rules are asked about the end of a list and the start of one. -/
theorem events_between {i : Nat} (hi : i = front.length ∨ i = front.length + 1) :
    (document'.viewAt i).events =
      [if i = front.length then .exitAttributes else .enterAttributes] := by
  obtain ⟨token, htoken, hkind⟩ := Option.map_eq_some_iff.1 (h.kind_between hi)
  have hview : (document'.viewAt i).token = token := congrArg (Option.getD · default) htoken
  have hnone : (document'.viewAt i).tree.elementAt? (document'.viewAt i).index = none :=
    h.elementAt?_between hi
  rw [View.events, hnone, hview, hkind]
  by_cases heq : i = front.length
  · rw [if_pos heq, if_pos heq]
    rfl
  · rw [if_neg heq, if_neg heq]
    rfl

end Document.Parted

end PugLint
