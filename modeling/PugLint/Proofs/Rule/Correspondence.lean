import PugLint.Proofs.Rule.Counterparts

/-!
# Rules on counterparts

What rules find at a token corresponds to what they find at its counterpart: every range is
computed from the places of tokens and every decision from what they say. Two rules compare
attributes of a list as they are written; for them, those that share a key or an event have to
be apart from the ones that are respelled.

* `View.SlotsApart`, `View.ListenersApart`: what the two rules need;
* `BuiltIn.corresponds`: the rules that there are find counterparts at counterparts.
-/

namespace PugLint

namespace Rule

variable {move : Nat → Nat} {verbatim : Prop} {view view' : View}
  (hview : view.Counterpart move verbatim view')

include hview

/-! ### Iteration -/

omit hview in
/-- Counterparts have the same values. -/
theorem value_eq {token token' : PlacedToken} (h : token.Counterpart move verbatim token') :
    token'.attribute?.bind Prod.snd = token.attribute?.bind Prod.snd := by
  obtain ⟨hnone, hnone'⟩ | ⟨_, _, _, hvalue, hvalue', -⟩ := h.attribute?
  · rw [hnone, hnone']
  · rw [hvalue, hvalue']
    rfl

theorem iteratesOver_eq (element : Element) (names : List String) :
    iteratesOver view' element names = iteratesOver view element names := by
  simp only [iteratesOver]
  obtain ⟨hnone, hnone'⟩ | ⟨_, _, hsome, hsome', htoken⟩ :=
    cases_of_rel (hview.findDirective? element "for")
  · rw [hnone, hnone']
  · rw [hsome, hsome', Option.bind_some, Option.bind_some, value_eq htoken]

theorem rendersComponent_eq (element : Element) :
    rendersComponent view' element = rendersComponent view element := by
  rw [rendersComponent, rendersComponent,
    hview.isSome_findAttribute? element Shorthand.closed_is]

theorem needsNoKey_eq (id : Nat) (element : Element) :
    needsNoKey view' id element = needsNoKey view id element := by
  have hkey := fun element => hview.isSome_findAttribute? element Shorthand.closed_boundKeyNames
  simp only [needsNoKey, hasKeyedDescendant, hkey, hview.tree_eq, hview.node?_eq,
    hview.isCustomComponent_eq]

theorem correspond_keyFindings (aliases : List String) (levels : Nat) (own : Bool) (id : Nat) :
    Correspond move verbatim (keyFindings view aliases levels own id)
      (keyFindings view' aliases levels own id) := by
  induction levels generalizing own id with
  | zero => exact .nil
  | succ levels ih =>
    rw [keyFindings, keyFindings, hview.node?_eq]
    cases view.node? id with
    | none => exact .nil
    | some element =>
      obtain ⟨hnone, hnone'⟩ | ⟨key, key', hsome, hsome', hkey⟩ :=
        cases_of_rel (hview.findAttribute? element Shorthand.closed_boundKeyNames)
      · simp only [hnone, hnone', hview.tree_eq, iteratesOver_eq hview, rendersComponent_eq hview]
        split
        · -- Below a `template` the children are searched one level less deep.
          refine forall₂_flatMap fun child _ => ?_
          split
          · exact .nil
          · exact ih false child
        · split
          · obtain ⟨hnone, hnone'⟩ | ⟨token, token', hsome, hsome', htoken⟩ :=
              cases_of_rel (hview.token? element.token)
            · rw [hnone, hnone']
              exact .nil
            · rw [hsome, hsome']
              refine .cons (.over ?_) .nil
              rw [htoken.start_eq, htoken.stop_eq]
          · exact .nil
      · have huses : keyUses key' aliases = keyUses key aliases := by
          rw [keyUses, keyUses, value_eq hkey]
        simp only [hsome, hsome', huses]
        split
        · exact .nil
        · refine .cons (.over ?_) .nil
          rw [hkey.start_eq, hkey.stop_eq]

theorem correspond_iterationFindings {raw value : String}
    (hvalue : view.token.attribute? = some (raw, some value)) :
    Correspond move verbatim (iterationFindings view view.token value)
      (iterationFindings view' view'.token value) := by
  simp only [iterationFindings, hview.ownerId?_eq, hview.tree_eq]
  split
  · split
    · exact .cons (.over (hview.token.valueRange_eq hvalue)) .nil
    · split
      · exact correspond_keyFindings hview _ _ _ _
      · exact .nil
  · exact .nil

end Rule

/-! ### Keys of attributes -/

variable {move : Nat → Nat} {verbatim : Prop}

/-- The name of the attribute with a given number. -/
def View.name? (view : View) (i : Nat) : Option String :=
  (view.token? i).bind fun token => token.attribute?.map Prod.fst

/-- A name in a shorthand whose counterpart is the same name in full. -/
def View.Respells (view view' : View) (shorthand : Shorthand) (rest : List Char) (i : Nat) : Prop :=
  view.name? i = some (shorthand.short rest) ∧ view'.name? i = some (shorthand.full rest)

/-- No slot with a counterpart in full shares its key, in either spelling, with another attribute
    of the list. -/
def View.SlotsApart (view view' : View) : Prop :=
  ∀ i ∈ view.index :: view.trackers.scope, ∀ j ∈ view.index :: view.trackers.scope, i ≠ j →
    ∀ rest raw key, view.Respells view' .slot rest i → view.name? j = some raw →
      Rule.attributeKey? raw = some key →
      key.1 ≠ Shorthand.slot.short rest ∧ key.1 ≠ Shorthand.slot.full rest

/-- A listener with a counterpart in full, whose event starts with no word, has the system modifiers
    of the other listeners of the list that answer to its event. -/
def View.ListenersApart (view view' : View) : Prop :=
  ∀ i ∈ view.trackers.scope, ∀ j ∈ view.trackers.scope, i ≠ j →
    ∀ rest raw listener other, view.Respells view' .on rest i →
      Shorthand.startsWithWord rest = false → view.name? j = some raw →
      Rule.Listener.parse? i (Shorthand.on.short rest) = some listener →
      Rule.Listener.parse? j raw = some other → other.event = listener.event →
      other.systemText = listener.systemText

/-- Counterparts have counterparts as names. -/
theorem View.Counterpart.name? {view view' : View} (h : view.Counterpart move verbatim view')
    (i : Nat) : Option.Rel (Spelled verbatim) (view.name? i) (view'.name? i) := by
  rw [View.name?, View.name?]
  obtain ⟨hnone, hnone'⟩ | ⟨token, token', hsome, hsome', htoken⟩ := cases_of_rel (h.token? i)
  · rw [hnone, hnone']
    exact .none
  · rw [hsome, hsome', Option.bind_some, Option.bind_some]
    obtain ⟨hnone, hnone'⟩ | ⟨raw, raw', value, hvalue, hvalue', hspelled⟩ := htoken.attribute?
    · rw [hnone, hnone']
      exact .none
    · rw [hvalue, hvalue']
      exact .some hspelled

/-- Where names are kept as they are written, nothing is respelled. -/
theorem View.Counterpart.not_respells {view view' : View}
    (h : view.Counterpart move verbatim view') (hverbatim : verbatim) (shorthand : Shorthand)
    (rest : List Char) (i : Nat) : ¬view.Respells view' shorthand rest i := by
  rintro ⟨hshort, hfull⟩
  have hrel := h.name? i
  rw [hshort, hfull] at hrel
  cases hrel with
  | some hspelled =>
    exact shorthand.short_ne_full rest (hspelled.eq_of_verbatim hverbatim).symm

theorem View.Counterpart.slotsApart {view view' : View}
    (h : view.Counterpart move verbatim view') (hverbatim : verbatim) : view.SlotsApart view' :=
  fun i _ _ _ _ rest _ _ hrespells => absurd hrespells (h.not_respells hverbatim .slot rest i)

theorem View.Counterpart.listenersApart {view view' : View}
    (h : view.Counterpart move verbatim view') (hverbatim : verbatim) :
    view.ListenersApart view' :=
  fun i _ _ _ _ rest _ _ _ hrespells => absurd hrespells (h.not_respells hverbatim .on rest i)

theorem View.name?_index {view : View} {raw : String} {value : Option String}
    (h : view.token.attribute? = some (raw, value)) (hlt : view.index < view.tokens.size) :
    view.name? view.index = some raw := by
  have hsome := Array.getElem?_eq_getElem hlt
  rw [View.token, View.token?, hsome, Option.getD_some] at h
  rw [View.name?, View.token?, hsome, Option.bind_some, h]
  rfl

namespace Rule

variable {view view' : View} (hview : view.Counterpart move verbatim view')

omit hview in
/-- The keys of counterparts are the same, slots apart. -/
theorem attributeKey?_of_spelled {raw raw' : String} (h : Spelled verbatim raw raw') :
    attributeKey? raw' = attributeKey? raw ∨
      ∃ rest, raw = Shorthand.slot.short rest ∧ raw' = Shorthand.slot.full rest := by
  cases h with
  | same => exact .inl rfl
  | inFull shorthand rest =>
    by_cases hslot : shorthand = .slot
    · subst hslot
      exact .inr ⟨rest, rfl, rfl⟩
    · exact .inl (shorthand.attributeKey?_full rest hslot)

/-- Whether a key is the one that an attribute is compared with. -/
def clashes (coexistence : Coexistence) (key other : String × Bool) : Bool :=
  other.1 == key.1 && !(coexistence.allows key.1 && other.2 != key.2)

omit hview in
theorem clashes_eq_false {coexistence : Coexistence} {key other : String × Bool}
    (h : other.1 ≠ key.1) : clashes coexistence key other = false := by
  rw [clashes, beq_false_of_ne h, Bool.false_and]

include hview

/-- Whether an earlier attribute has the same key. -/
theorem any_clashes_eq (coexistence : Coexistence) (hslots : view.SlotsApart view') {i : Nat}
    (hi : i ∈ view.trackers.scope) (hne : i ≠ view.index) {raw raw' : String}
    {key key' : String × Bool} (hspelled : Spelled verbatim raw raw')
    (hraw : view.name? view.index = some raw) (hraw' : view'.name? view.index = some raw')
    (hkey : attributeKey? raw = some key) (hkey' : attributeKey? raw' = some key') :
    ((view'.name? i).bind attributeKey?).any (clashes coexistence key') =
      ((view.name? i).bind attributeKey?).any (clashes coexistence key) := by
  have hscope := List.mem_cons_of_mem view.index hi
  obtain ⟨hnone, hnone'⟩ | ⟨other, other', hother, hother', hspelled'⟩ :=
    cases_of_rel (hview.name? i)
  · rw [hnone, hnone']
    rfl
  rw [hother, hother', Option.bind_some, Option.bind_some]
  rcases attributeKey?_of_spelled hspelled with heq | ⟨rest, rfl, rfl⟩
  · obtain rfl : key = key' := Option.some.inj (hkey.symm.trans (heq.symm.trans hkey'))
    rcases attributeKey?_of_spelled hspelled' with heq' | ⟨rest, rfl, rfl⟩
    · rw [heq']
    · -- The earlier attribute is a slot: neither of its spellings is this key.
      obtain ⟨hshort, hfull⟩ := hslots i hscope view.index List.mem_cons_self hne rest raw key
        ⟨hother, hother'⟩ hraw hkey
      rw [Shorthand.attributeKey?_short_slot, Shorthand.attributeKey?_full_slot, Option.any_some,
        Option.any_some, clashes_eq_false hfull.symm, clashes_eq_false hshort.symm]
  · -- This attribute is a slot: neither of its spellings is the earlier key.
    rw [Shorthand.attributeKey?_short_slot] at hkey
    rw [Shorthand.attributeKey?_full_slot] at hkey'
    obtain rfl := Option.some.inj hkey
    obtain rfl := Option.some.inj hkey'
    have hapart := hslots view.index List.mem_cons_self i hscope hne.symm rest other
    rcases attributeKey?_of_spelled hspelled' with heq' | ⟨rest', rfl, rfl⟩
    · rw [heq']
      cases hearlier : attributeKey? other with
      | none => rfl
      | some earlier =>
        obtain ⟨hshort, hfull⟩ := hapart earlier ⟨hraw, hraw'⟩ hother hearlier
        rw [Option.any_some, Option.any_some, clashes_eq_false hfull, clashes_eq_false hshort]
    · obtain ⟨hshort, -⟩ := hapart _ ⟨hraw, hraw'⟩ hother (Shorthand.attributeKey?_short_slot rest')
      have hfull : Shorthand.slot.full rest' ≠ Shorthand.slot.full rest := by
        intro hfull
        have hrest := String.toList_inj.2 hfull
        rw [Shorthand.toList_full, Shorthand.toList_full] at hrest
        exact hshort (congrArg Shorthand.slot.short (List.append_cancel_left hrest))
      rw [Shorthand.attributeKey?_short_slot, Shorthand.attributeKey?_full_slot, Option.any_some,
        Option.any_some, clashes_eq_false hfull, clashes_eq_false hshort]

omit hview in
/-- The keys of the earlier attributes of a list, as the rule compares them. -/
theorem any_earlier_eq (coexistence : Coexistence) (view : View) (key : String × Bool) :
    (((view.trackers.scope.filter (· < view.index)).filterMap fun i =>
      (view.token? i).bind fun token => token.attribute?.bind fun (raw, _) =>
        attributeKey? raw).any fun (name, bound) =>
          name == key.1 && !(coexistence.allows key.1 && bound != key.2)) =
    (view.trackers.scope.filter (· < view.index)).any fun i =>
      ((view.name? i).bind attributeKey?).any (clashes coexistence key) := by
  rw [List.any_filterMap]
  refine congrArg _ (funext fun i => ?_)
  rw [View.name?]
  cases view.token? i with
  | none => rfl
  | some token =>
    cases hattribute : token.attribute? with
    | none => simp [hattribute]
    | some pair => cases hother : attributeKey? pair.1 <;> simp [hattribute, hother, clashes]

theorem corresponds_noDuplicateAttributes (coexistence : Coexistence)
    (hslots : view.SlotsApart view') :
    Corresponds move verbatim view view' (noDuplicateAttributes coexistence).check := by
  dsimp only [noDuplicateAttributes]
  refine corresponds_atAttributes hview fun raw raw' value hspelled hvalue hvalue' => ?_
  have hraw := View.name?_index hvalue hview.index_lt
  have hraw' := View.name?_index hvalue' hview.index_lt'
  rw [hview.index_eq] at hraw'
  have hnone : attributeKey? raw' = none ↔ attributeKey? raw = none := by
    rcases attributeKey?_of_spelled hspelled with heq | ⟨rest, rfl, rfl⟩
    · rw [heq]
    · rw [Shorthand.attributeKey?_short_slot, Shorthand.attributeKey?_full_slot]
      exact ⟨nofun, nofun⟩
  cases hkey : attributeKey? raw with
  | none =>
    rw [hnone.2 hkey]
    exact .nil
  | some key =>
    obtain ⟨key', hkey'⟩ := Option.ne_none_iff_exists'.1 (mt hnone.1 (hkey ▸ nofun))
    have hduplicate : ((view'.trackers.scope.filter (· < view'.index)).any fun i =>
          ((view'.name? i).bind attributeKey?).any (clashes coexistence key')) =
        (view.trackers.scope.filter (· < view.index)).any fun i =>
          ((view.name? i).bind attributeKey?).any (clashes coexistence key) := by
      rw [hview.trackers_eq, hview.index_eq]
      refine any_eq_of_forall₂
        (r := fun i j => i = j ∧ i ∈ view.trackers.scope.filter (· < view.index))
        (List.forall₂_same.2 fun i hi => ⟨rfl, hi⟩) ?_
      rintro i _ ⟨rfl, hi⟩
      obtain ⟨hscope, hlt⟩ := List.mem_filter.1 hi
      exact any_clashes_eq hview coexistence hslots hscope (Nat.ne_of_lt (of_decide_eq_true hlt))
        hspelled hraw hraw' hkey hkey'
    simp only [hkey', any_earlier_eq, hduplicate]
    split
    · refine .cons ?_ .nil
      rw [hview.token.nameRange_eq]
      refine .problem (fun hverbatim => ?_) (fun _ => rfl)
      rw [hspelled.eq_of_verbatim hverbatim, hkey] at hkey'
      rw [Option.some.inj hkey']
    · exact .nil

/-! ### Listeners -/

omit hview in
/-- What a listener becomes: one that is alike, and the same one unless the other listeners of the
    list that answer to its event have the same system modifiers. -/
structure Listener.Becomes (all : List Listener) (listener listener' : Listener) : Prop where
  mem : listener ∈ all
  alike : listener.Alike listener'
  eq_or_agree : listener' = listener ∨ ∀ other ∈ all, other.token ≠ listener.token →
    other.event = listener.event → other.systemText = listener.systemText

omit hview in
/-- Two listeners of one event conflict as those that they become. -/
theorem Listener.Becomes.conflicts_eq {all : List Listener} {base base' other other' : Listener}
    (hbase : Becomes all base base') (hother : Becomes all other other')
    (hevent : other.event = base.event) : base'.conflicts other' = base.conflicts other := by
  by_cases htoken : base.token = other.token
  · have htoken' : base'.token = other'.token := by
      rw [hbase.alike.token_eq, hother.alike.token_eq, htoken]
    simp [conflicts, htoken, htoken']
  by_cases hsystem : base.systemText = other.systemText
  · have hsystem' : base'.systemText = other'.systemText := by
      rw [hbase.alike.systemText_eq, hother.alike.systemText_eq, hsystem]
    simp [conflicts, hsystem, hsystem']
  · -- Two listeners of one event that differ in system modifiers: both stay as they are.
    have hb : base' = base := hbase.eq_or_agree.resolve_right fun hagree =>
      hsystem (hagree other hother.mem (Ne.symm htoken) hevent).symm
    have ho : other' = other := hother.eq_or_agree.resolve_right fun hagree =>
      hsystem (hagree base hbase.mem htoken hevent.symm)
    rw [hb, ho]

omit hview in
theorem Listener.forall₂_inexact {all all' : List Listener}
    (h : List.Forall₂ (Becomes all) all all') :
    List.Forall₂ (Becomes all) (inexact all) (inexact all') := by
  refine List.rel_filter (fun base base' hbase => ?_) h
  have hgroup (p q : Listener → Bool) (hpq : ∀ other other', Becomes all other other' →
      other.event = base.event → q other' = p other) :
      (all'.filter (·.event == base'.event)).any q =
        (all.filter (·.event == base.event)).any p := by
    rw [List.any_filter, List.any_filter]
    refine any_eq_of_forall₂ h fun other other' hother => ?_
    rw [hbase.alike.event_eq, hother.alike.event_eq]
    cases hevent : other.event == base.event with
    | true => rw [hpq other other' hother (LawfulBEq.eq_of_beq hevent)]
    | false => rfl
  have hsystem := hgroup hasSystemModifier hasSystemModifier fun _ _ hother _ =>
    hother.alike.hasSystemModifier_eq
  have hconflicts := hgroup (base.conflicts ·) (base'.conflicts ·) fun _ _ hother hevent =>
    hbase.conflicts_eq hother hevent
  simp only [hsystem, hconflicts, hbase.alike.isExact_eq]

omit hview in
/-- The listener with a given number; of a component, only if it is on its root element. -/
def listenerAt? (view : View) (isComponent : Bool) (i : Nat) : Option Listener :=
  (view.name? i).bind fun raw =>
    if isComponent && (Text.splitBefore? ".native".toList raw.toList).isNone then none
    else Listener.parse? i raw

omit hview in
theorem listeners_eq (view : View) (isComponent : Bool) :
    listeners view isComponent = view.trackers.scope.filterMap (listenerAt? view isComponent) := by
  refine congrArg (view.trackers.scope.filterMap ·) (funext fun i => ?_)
  rw [listenerAt?, View.name?]
  cases view.token? i with
  | none => rfl
  | some token =>
    rw [Option.bind_some, Option.bind_some]
    cases token.attribute? <;> rfl

omit hview in
/-- A listener is read from the name of its attribute. -/
theorem exists_of_listenerAt? {isComponent : Bool} {i : Nat} {listener : Listener}
    (h : listenerAt? view isComponent i = some listener) :
    ∃ raw, view.name? i = some raw ∧ Listener.parse? i raw = some listener := by
  obtain ⟨raw, hraw, h⟩ := Option.bind_eq_some_iff.1 h
  split at h
  · cases h
  · exact ⟨raw, hraw, h⟩

omit hview in
theorem Listener.token_of_parse? {i : Nat} {raw : String} {listener : Listener}
    (h : parse? i raw = some listener) : listener.token = i := by
  obtain ⟨rest, -, rfl⟩ := Option.map_eq_some_iff.1 h
  rfl

theorem rel_listenerAt? (hlisteners : view.ListenersApart view') (isComponent : Bool) {i : Nat}
    (hi : i ∈ view.trackers.scope) :
    Option.Rel (Listener.Becomes (listeners view isComponent)) (listenerAt? view isComponent i)
      (listenerAt? view' isComponent i) := by
  have hmem {j : Nat} {listener : Listener} (hj : j ∈ view.trackers.scope)
      (h : listenerAt? view isComponent j = some listener) :
      listener ∈ listeners view isComponent := by
    rw [listeners_eq]
    exact List.mem_filterMap.2 ⟨j, hj, h⟩
  obtain ⟨hnone, hnone'⟩ | ⟨raw, raw', hraw, hraw', hspelled⟩ := cases_of_rel (hview.name? i)
  · rw [listenerAt?, listenerAt?, hnone, hnone']
    exact .none
  cases hspelled with
  | same =>
    have heq : listenerAt? view' isComponent i = listenerAt? view isComponent i := by
      rw [listenerAt?, listenerAt?, hraw, hraw']
    rw [heq]
    cases hlistener : listenerAt? view isComponent i with
    | none => exact .none
    | some listener => exact .some ⟨hmem hi hlistener, .refl _, .inl rfl⟩
  | inFull shorthand rest =>
    rw [listenerAt?, listenerAt?, hraw, hraw', Option.bind_some, Option.bind_some,
      shorthand.isNone_native_full rest]
    split
    · exact .none
    · rename_i hkept
      by_cases hon : shorthand = .on
      · subst hon
        rw [Shorthand.parse?_short_on, Shorthand.parse?_full_on]
        have hlistener : listenerAt? view isComponent i =
            some (Shorthand.listener rest i (Shorthand.on.short rest)) := by
          rw [listenerAt?, hraw, Option.bind_some, if_neg hkept, Shorthand.parse?_short_on]
        refine .some ⟨hmem hi hlistener, Shorthand.listener_alike rest i, ?_⟩
        cases hword : Shorthand.startsWithWord rest with
        | true => exact .inl (Shorthand.listener_eq_of_word rest i _ _ hword)
        | false =>
          refine .inr fun other hother hne hevent => ?_
          rw [listeners_eq] at hother
          obtain ⟨j, hj, hother⟩ := List.mem_filterMap.1 hother
          obtain ⟨name, hname, hparse⟩ := exists_of_listenerAt? hother
          rw [Listener.token_of_parse? hparse] at hne
          exact hlisteners i hi j hj (Ne.symm hne) rest name _ other ⟨hraw, hraw'⟩ hword hname
            (Shorthand.parse?_short_on rest i) hparse hevent
      · have hparse {raw : String} (h : Listener.unprefixed? raw.toList = none) :
            Listener.parse? i raw = none := by
          rw [Listener.parse?, h, Option.map_none]
        rw [hparse ((shorthand.unprefixed?_short rest).trans (if_neg hon)),
          hparse ((shorthand.unprefixed?_full rest).trans (if_neg hon))]
        exact .none

theorem forall₂_listeners (hlisteners : view.ListenersApart view') (isComponent : Bool) :
    List.Forall₂ (Listener.Becomes (listeners view isComponent)) (listeners view isComponent)
      (listeners view' isComponent) := by
  have h := forall₂_filterMap fun i hi => rel_listenerAt? hview hlisteners isComponent hi
  rwa [← listeners_eq, ← hview.trackers_eq, ← listeners_eq] at h

/-- The listeners that should be exact are counterparts. -/
theorem forall₂_inexact_token? (hlisteners : view.ListenersApart view') (isComponent : Bool) :
    List.Forall₂ (PlacedToken.Counterpart move verbatim)
      ((Listener.inexact (listeners view isComponent)).filterMap fun listener =>
        view.token? listener.token)
      ((Listener.inexact (listeners view' isComponent)).filterMap fun listener =>
        view'.token? listener.token) := by
  refine List.rel_filterMap (fun listener listener' hbecomes => ?_)
    (Listener.forall₂_inexact (forall₂_listeners hview hlisteners isComponent))
  rw [hbecomes.alike.token_eq]
  exact hview.token? _

theorem corresponds_requireExact (hlisteners : view.ListenersApart view') :
    Corresponds move verbatim view view' requireExact.check := by
  intro event _
  cases event with
  | exitAttributes =>
    simp only [requireExact, hview.owner?_eq]
    split
    · rw [hview.isCustomComponent_eq]
      exact List.rel_map (fun _ _ h => .over (PlacedToken.Counterpart.nameRange_eq h))
        (forall₂_inexact_token? hview hlisteners _)
    · exact .nil
  | _ => exact .nil

/-! ### The rules that there are -/

omit hview in
/-- A use of `this` behind the start of a value or of a text. -/
theorem counterpart_thisFinding {token token' : PlacedToken} {n first offset : Nat}
    (hstop : token'.stop = token.stop + n) (hfirst : first ≤ offset) (hlast : first ≤ token.stop)
    (hmove : ∀ place, first ≤ place → place ≤ token.stop → move place = place + n) :
    Finding.Counterpart move verbatim (thisFinding token offset)
      (thisFinding token' (offset + n)) := by
  refine .over ?_
  have hstart := hmove (min offset token.stop) (by omega) (by omega)
  have hbehind := hmove (min (min offset token.stop + 4) token.stop) (by omega) (by omega)
  rw [hstart, hbehind, hstop]
  refine Prod.ext ?_ ?_
  · simp only
    omega
  · simp only
    omega

theorem corresponds_noScopedSlots : Corresponds move verbatim view view' noScopedSlots.check := by
  dsimp only [noScopedSlots]
  refine corresponds_atAttributes hview fun raw raw' value hspelled hvalue _ => ?_
  obtain ⟨hnone, hnone'⟩ | ⟨directive, directive', hsome, hsome', hname, -⟩ := hspelled.parse?
  · rw [hnone, hnone']
    exact .nil
  cases value with
  | none =>
    rw [hsome, hsome']
    exact .nil
  | some value =>
    have hoffsets : scopedSlotsOffsets directive' = scopedSlotsOffsets directive := by
      funext expression
      have his : directive'.is "for" = directive.is "for" := by
        rw [Directive.is, Directive.is, hname]
      rw [scopedSlotsOffsets, scopedSlotsOffsets, his]
    simp only [hsome, hsome', hoffsets]
    refine correspond_map fun offset hoffset => ?_
    have hle := add_le_of_mem_scopedSlotsOffsets hoffset
    have hcovers := hview.token.roomy.covers_expression hvalue hle
    obtain ⟨n, hstart, -, -, hmove⟩ := hview.token.exists_shift_value hvalue
    have hfirst : view.token.valueRange.1 ≤ view.token.expressionStart value + offset := by
      rw [PlacedToken.expressionStart]
      omega
    refine .of_eq ?_ ?_ (fun _ => rfl) fun hverbatim => ?_
    · rw [hmove _ hfirst (Nat.le_trans hcovers.start_le_stop hcovers.stop_le), hstart]
      omega
    · rw [hmove _ (Nat.le_trans hfirst hcovers.start_le_stop) hcovers.stop_le, hstart]
      omega
    · obtain ⟨m, hshifted⟩ := hview.token.shifted_of_verbatim hverbatim
      rw [← hshifted.fix_eq, hshifted.expressionStart_eq]
      simp only [Nat.add_right_comm _ m]

/-- The name of an attribute is checked, wherever it starts in what is written. -/
theorem corresponds_attributeHyphenation (option : Hyphenation) (ignored : List String) :
    Corresponds move verbatim view view' (attributeHyphenation option ignored).check := by
  dsimp only [attributeHyphenation]
  refine corresponds_atAttributes hview fun raw raw' value hspelled hvalue _ => ?_
  rw [hview.owner?_eq]
  cases view.owner? with
  | none => exact .nil
  | some element =>
    have hchecked : (checkedName? raw').map Prod.fst = (checkedName? raw).map Prod.fst := by
      cases hspelled with
      | same => rfl
      | inFull shorthand rest => exact shorthand.checkedName?_full rest
    cases hname : checkedName? raw with
    | none =>
      rw [hname, Option.map_none, Option.map_eq_none_iff] at hchecked
      rw [hchecked]
      exact .nil
    | some found =>
      rw [hname, Option.map_some] at hchecked
      obtain ⟨⟨name, offset'⟩, hname', rfl⟩ := Option.map_eq_some_iff.1 hchecked
      simp only [hname']
      split
      · exact .nil
      · have hrange := hview.token.nameRange_eq
        refine .cons (.of_eq (by rw [hrange]) (by rw [hrange]) (fun hverbatim => ?_)
          fun hverbatim => ?_) .nil
        · rw [hspelled.eq_of_verbatim hverbatim]
        · rw [hspelled.eq_of_verbatim hverbatim, hname] at hname'
          obtain rfl : found.2 = offset' := congrArg Prod.snd (Option.some.inj hname')
          obtain ⟨n, hshifted⟩ := hview.token.shifted_of_verbatim hverbatim
          rw [← hshifted.fix_eq, hshifted.nameRange_eq]
          simp only [Nat.add_right_comm _ n]

/-- The keys of a list of attributes are counterparts, and so is the last of them. -/
theorem corresponds_noTemplateKey : Corresponds move verbatim view view' noTemplateKey.check := by
  intro event _
  cases event with
  | exitAttributes =>
    have hattributes := hview.forall₂_token? view.trackers.scope
    have hrepeats := any_eq_of_forall₂ hattributes fun _ _ h => h.any_is "for"
    simp only [noTemplateKey, hview.trackers_eq, hrepeats]
    split
    · split
      · exact .nil
      · have hkeys : List.Forall₂ (PlacedToken.Counterpart move verbatim)
            ((view.trackers.scope.filterMap view.token?).filter fun token =>
              token.attribute?.any fun (name, _) => keyNames.contains name)
            ((view.trackers.scope.filterMap view'.token?).filter fun token =>
              token.attribute?.any fun (name, _) => keyNames.contains name) := by
          refine List.rel_filter (fun _ _ h => ?_) hattributes
          simp only [h.any_contains Shorthand.closed_keyNames]
        obtain ⟨hnone, hnone'⟩ | ⟨key, key', hsome, hsome', hkey⟩ :=
          cases_of_rel (rel_getLast? hkeys)
        · rw [hnone, hnone']
          exact .nil
        · rw [hsome, hsome']
          refine .cons (.over ?_) .nil
          rw [hkey.start_eq, hkey.stop_eq]
    · exact .nil
  | _ => exact .nil

/-- Uses of bindings are noted with their names alone. -/
theorem corresponds_noteUsedBindings :
    Corresponds move verbatim view view' noteUsedBindings.check := by
  dsimp only [noteUsedBindings]
  have hused (names : List String) : Correspond move verbatim (usedBindings view names)
      (usedBindings view' names) := by
    rw [usedBindings, usedBindings, hview.script_eq]
    exact correspond_map fun name _ => .use name
  refine .both (corresponds_atElements hview fun element => ?_)
    (.both (corresponds_atAttributes hview fun raw raw' value hspelled _ _ => ?_)
      (corresponds_atText hview fun text _ _ => ?_))
  · split
    · exact hused _
    · exact .nil
  · obtain ⟨hnone, hnone'⟩ | ⟨_, _, hsome, hsome', -⟩ := hspelled.parse?
    · rw [hnone, hnone']
      exact .nil
    · rw [hsome, hsome']
      cases value with
      | none => exact .nil
      | some value => exact hused _
  · exact forall₂_flatMap fun _ _ => hused _

theorem corresponds_noFilter : Corresponds move verbatim view view' noFilter.check := by
  dsimp only [noFilter]
  refine .both (corresponds_atAttributes hview fun raw raw' value hspelled hvalue _ => ?_)
    (corresponds_atText hview fun text _ _ => ?_)
  · obtain ⟨hnone, hnone'⟩ | ⟨_, _, hsome, hsome', -⟩ := hspelled.parse?
    · rw [hnone, hnone']
      exact .nil
    · rw [hsome, hsome']
      cases value with
      | none => exact .nil
      | some value =>
        exact correspond_ite Iff.rfl fun _ => hview.token.expressionRange_eq hvalue
  · exact correspond_ite Iff.rfl fun _ => by rw [hview.token.start_eq, hview.token.stop_eq]

/-- What is told of an iteration comes from its expression, which is the same. -/
theorem corresponds_noConditionedIteration (allowsAlias : Bool) :
    Corresponds move verbatim view view' (noConditionedIteration allowsAlias).check := by
  dsimp only [noConditionedIteration]
  refine corresponds_atDirective hview fun _ _ _ value _ _ _ _ _ => ?_
  rw [hview.owner?_eq]
  cases view.owner? with
  | none => exact .nil
  | some element =>
    simp only [Option.bind_some]
    obtain ⟨hnone, hnone'⟩ | ⟨_, _, hsome, hsome', htoken⟩ :=
      cases_of_rel (hview.findDirective? element "for")
    · rw [hnone, hnone']
      exact .nil
    · rw [hsome, hsome', Option.bind_some, Option.bind_some]
      obtain ⟨hnone, hnone'⟩ | ⟨_, _, iterated, hvalue, hvalue', -⟩ := htoken.attribute?
      · rw [hnone, hnone']
        exact .nil
      · rw [hvalue, hvalue']
        exact correspond_map fun _ _ => .over hview.token.nameRange_eq

/-- The mark lies on the first characters of the directive, which has no other spelling. -/
theorem corresponds_requireKey : Corresponds move verbatim view view' requireKey.check := by
  dsimp only [requireKey]
  refine corresponds_atDirective hview fun raw directive _ value hvalue hparse hfor _ _ => ?_
  obtain ⟨n, hshifted⟩ := hview.token.shifted_of_parse? hvalue hparse hfor fun shorthand => by
    cases shorthand <;> decide
  rw [hview.ownerId?_eq, hview.owner?_eq]
  split
  · rw [needsNoKey_eq hview]
    split
    · exact .nil
    · have hcovers := hview.token.roomy.covers_front 5
      refine .cons (.over ?_) .nil
      rw [hshifted.move_eq _ (Nat.le_refl _) (Nat.le_trans hcovers.start_le_stop hcovers.stop_le),
        hshifted.move_eq _ hcovers.start_le_stop hcovers.stop_le, hshifted.start_eq,
        hshifted.stop_eq]
      congr 1
      omega
  · exact .nil

theorem corresponds_validFor : Corresponds move verbatim view view' validFor.check := by
  dsimp only [validFor]
  refine corresponds_atDirective hview fun raw _ _ value hvalue _ _ hargument hmodifiers => ?_
  have hname := hview.token.nameRange_eq
  rw [hargument, hmodifiers]
  refine List.rel_append (List.rel_append (List.rel_append (correspond_ite Iff.rfl fun _ => hname)
    (correspond_ite Iff.rfl fun _ => hname)) (correspond_ite Iff.rfl fun _ => hname)) ?_
  split
  · exact .nil
  · rename_i hvalued
    cases value with
    | none => exact absurd rfl hvalued
    | some value => exact correspond_iterationFindings hview hvalue

/-- The name of an element is checked in a text that is the same. -/
theorem corresponds_componentCasing (casing : ComponentCasing) :
    Corresponds move verbatim view view' (componentCasing casing).check := by
  dsimp only [componentCasing]
  refine corresponds_atElements hview fun element => ?_
  rw [hview.script_eq]
  split
  · refine .cons (.of_eq hview.token.start_eq hview.token.stop_eq (fun _ => rfl)
      fun hverbatim => ?_) .nil
    obtain ⟨n, hshifted⟩ := hview.token.shifted_of_verbatim hverbatim
    rw [← hshifted.fix_eq, hshifted.start_eq, hshifted.stop_eq]
  · exact .nil

/-- What is found stands at an offset from the start of an expression. -/
theorem corresponds_thisInTemplate (option : ThisOption) :
    Corresponds move verbatim view view' (thisInTemplate option).check := by
  simp only [thisInTemplate]
  split
  · exact fun _ _ => .nil
  · refine .both (corresponds_atAttributes hview fun raw raw' value hspelled hvalue _ => ?_)
      (corresponds_atText hview fun text n hshifted => ?_)
    · obtain ⟨hnone, hnone'⟩ | ⟨_, _, hsome, hsome', -⟩ := hspelled.parse?
      · rw [hnone, hnone']
        exact .nil
      · rw [hsome, hsome']
        cases value with
        | none => exact .nil
        | some value =>
          obtain ⟨n, hstart, -, hstop, hmove⟩ := hview.token.exists_shift_value hvalue
          have hcovers := hview.token.roomy.covers_valueRange
          refine correspond_map fun offset _ => ?_
          rw [hstart, Nat.add_right_comm]
          refine counterpart_thisFinding hstop ?_
            (Nat.le_trans hcovers.start_le_stop hcovers.stop_le) hmove
          rw [PlacedToken.expressionStart]
          omega
    · refine forall₂_flatMap fun found _ => correspond_map fun offset _ => ?_
      have heq : view'.token.start + found.1 + offset =
          view.token.start + found.1 + offset + n := by
        rw [hshifted.start_eq]
        omega
      rw [heq]
      exact counterpart_thisFinding hshifted.stop_eq (by omega)
        hview.token.roomy.start_le_stop hshifted.move_eq

theorem corresponds_singleRoot : Corresponds move verbatim view view' singleRoot.check := by
  dsimp only [singleRoot]
  have hwhole : (view'.token.start, view'.token.stop) =
      (move view.token.start, move view.token.stop) := by
    rw [hview.token.start_eq, hview.token.stop_eq]
  refine .both (corresponds_atElements hview fun element => ?_)
    (.both (corresponds_atDirective hview fun _ _ _ _ _ _ _ _ _ => ?_)
      (corresponds_atText hview fun text _ _ => ?_))
  · split
    · exact correspond_map fun _ _ => .over hwhole
    · exact .nil
  · refine correspond_ite ?_ fun _ => hview.token.nameRange_eq
    rw [hview.owner?_eq]
  · rw [hview.ownerId?_eq]
    split
    · exact .nil
    · exact .cons (.over hwhole) .nil

/-- The rules that there are find counterparts at a token and at its counterpart. Duplicates and
    listeners are compared as they are written, so two of the rules need the attributes of a list
    to be apart. -/
theorem BuiltIn.corresponds {rule : Rule} (h : rule.BuiltIn)
    (hslots : (∃ coexistence, rule = .noDuplicateAttributes coexistence) → view.SlotsApart view')
    (hlisteners : rule = .requireExact → view.ListenersApart view') :
    Corresponds move verbatim view view' rule.check := by
  cases h with
  | noteUsedBindings => exact corresponds_noteUsedBindings hview
  | noScopedSlots => exact corresponds_noScopedSlots hview
  | noFilter => exact corresponds_noFilter hview
  | noRepeatedCondition =>
    dsimp only [Rule.noRepeatedCondition]
    refine corresponds_atDirective hview fun raw _ _ value hvalue _ _ _ _ => ?_
    cases value with
    | none => exact .nil
    | some value =>
      refine correspond_ite ?_ fun _ => hview.token.expressionRange_eq hvalue
      rw [hview.trackers_eq]
  | noDuplicateAttributes coexistence =>
    exact corresponds_noDuplicateAttributes hview coexistence (hslots ⟨coexistence, rfl⟩)
  | noTemplateKey => exact corresponds_noTemplateKey hview
  | noTextareaMustache =>
    dsimp only [Rule.noTextareaMustache]
    refine corresponds_atText hview fun text _ _ => correspond_ite ?_ fun _ => ?_
    · rw [hview.owner?_eq]
    · rw [hview.token.start_eq, hview.token.stop_eq]
  | noConditionedIteration allowsAlias => exact corresponds_noConditionedIteration hview allowsAlias
  | requireComponentIs =>
    dsimp only [Rule.requireComponentIs]
    refine corresponds_atElements hview fun element => correspond_ite ?_ fun _ => ?_
    · rw [← Option.not_isSome, ← Option.not_isSome,
        hview.isSome_findAttribute? element Shorthand.closed_boundIs]
    · rw [hview.token.start_eq, hview.token.stop_eq]
  | requireKey => exact corresponds_requireKey hview
  | requireExact => exact corresponds_requireExact hview (hlisteners rfl)
  | validRoot =>
    intro event hevent
    cases event with
    | block => exact absurd rfl hevent
    | _ => exact .nil
  | validElseIf =>
    refine corresponds_atConditional hview fun _ _ _ _ hargument hmodifiers => ?_
    rw [hview.trackers_eq, hview.hasDirective_eq, hargument, hmodifiers]
  | validElse =>
    refine corresponds_atConditional hview fun _ _ _ _ hargument hmodifiers => ?_
    rw [hview.trackers_eq, hview.hasDirective_eq, hargument, hmodifiers]
  | validIf =>
    refine corresponds_atConditional hview fun _ _ _ _ hargument hmodifiers => ?_
    rw [hview.hasDirective_eq, hargument, hmodifiers]
  | validFor => exact corresponds_validFor hview
  | validOn extra =>
    dsimp only [Rule.validOn]
    refine corresponds_atDirective hview fun _ _ _ _ _ _ _ hargument hmodifiers => ?_
    have hname := hview.token.nameRange_eq
    rw [hargument, hmodifiers]
    split
    · exact .cons (.over hname) .nil
    · split
      · exact .cons (.over hname) .nil
      · exact correspond_map fun _ _ => .over hname
  | attributeHyphenation option ignored =>
    exact corresponds_attributeHyphenation hview option ignored
  | componentCasing casing => exact corresponds_componentCasing hview casing
  | thisInTemplate option => exact corresponds_thisInTemplate hview option
  | singleRoot => exact corresponds_singleRoot hview

omit hview in
/-- One rule alone is asked about the template block as a whole. -/
theorem BuiltIn.check_block {rule : Rule} (h : rule.BuiltIn) :
    rule = .validRoot ∨ ∀ view, rule.check .block view = [] := by
  cases h with
  | validRoot => exact .inl rfl
  | thisInTemplate option =>
    refine .inr fun view => ?_
    simp only [Rule.thisInTemplate]
    split <;> rfl
  | _ => exact .inr fun _ => rfl

end Rule

end PugLint
