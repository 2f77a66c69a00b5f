import Mathlib.Data.List.Perm.Basic
import PugLint.Proofs.Session.Parting

/-!
# Findings in a list in two parts

What rules find where a list of attributes is in two parts, compared with the whole list. Where
the list is not about to end, they find the same. The end of the list is where two rules look at
all of it; what they find there, they find at the ends of the parts. So if no attribute is compared
with one of the other part alone, the same is reported, in another order.

* `Document.Parted.filter_scope`: the attributes that are known in other lists;
* `Document.Parted.findingsAt_skip_of_ne`: what is found at tokens that are not the end of the list;
* `Document.Parted.findingsAt_end`: what is found at the end of the list;
* `Document.Parted.perm_findings`: what is found at all tokens.
-/

namespace PugLint

/-! ### Rules at the ends of lists -/

namespace Rule

variable {rule : Rule}

/-- At the start of a list nothing is found. -/
theorem BuiltIn.check_enterAttributes (h : rule.BuiltIn) (view : View) :
    rule.check .enterAttributes view = [] := by
  cases h with
  | thisInTemplate option =>
    simp only [Rule.thisInTemplate]
    split <;> rfl
  | _ => rfl

/-- At the end of a list, two rules find something. -/
theorem BuiltIn.check_exitAttributes (h : rule.BuiltIn)
    (hends : ¬(rule = .noTemplateKey ∨ rule = .requireExact)) (view : View) :
    rule.check .exitAttributes view = [] := by
  cases h with
  | noTemplateKey => exact absurd (.inl rfl) hends
  | requireExact => exact absurd (.inr rfl) hends
  | thisInTemplate option =>
    simp only [Rule.thisInTemplate]
    split <;> rfl
  | _ => rfl

/-- The two rules find nothing elsewhere. -/
theorem check_of_ne_exitAttributes (h : rule = .noTemplateKey ∨ rule = .requireExact)
    {event : Event} (hevent : event ≠ .exitAttributes) (view : View) :
    rule.check event view = [] := by
  rcases h with rfl | rfl
  · cases event with
    | exitAttributes => exact absurd rfl hevent
    | _ => rfl
  · cases event with
    | exitAttributes => exact absurd rfl hevent
    | _ => rfl

end Rule

theorem View.kind_of_exitAttributes_mem {view : View} (h : .exitAttributes ∈ view.events) :
    view.token.kind = .endAttributes := by
  rw [View.events, List.mem_append] at h
  rcases h with h | h
  · split at h
    · cases List.mem_singleton.1 h
    · cases h
  · rw [Option.mem_toList] at h
    cases hkind : view.token.kind with
    | endAttributes => rfl
    | _ =>
      rw [hkind] at h
      cases h

namespace Document.Parted

variable {front back : List PlacedToken} {ending opening : PlacedToken}
  {document document' : Document} (h : document.Parted front back ending opening document')
  {before first second after : List TokenKind}
  (hlist : PartedList front back before first second after)

include h

/-! ### What is known -/

/-- The token with a number that there is. -/
theorem token_viewAt {i : Nat} (hi : i < (front ++ back).length) :
    ((front ++ back).map PlacedToken.kind)[i]? = some (document.viewAt i).token.kind := by
  have htoken : (document.viewAt i).token? i = (front ++ back)[i]? := by
    change document.stream.tokens[i]? = _
    rw [h.tokens_eq, List.getElem?_toArray]
  rw [View.token, show (document.viewAt i).index = i from rfl, htoken, List.getElem?_map,
    List.getElem?_eq_getElem hi]
  rfl

include hlist

/-- In other lists, no attributes of the first part are known behind it. -/
theorem filter_scope {i : Nat} (hi : i < front.length ∨ front.length + second.length < i)
    {kind : TokenKind} (hkind : ((front ++ back).map PlacedToken.kind)[i]? = some kind)
    (hlisted : kind.attribute?.isSome = true ∨ kind = .endAttributes) :
    (document.viewAt i).trackers.scope.filter (inPart front.length i) =
      (document.viewAt i).trackers.scope := by
  refine List.filter_eq_self.2 fun j hj => ?_
  rcases hi with hi | hi
  · rw [inPart_of_lt hi]
  · have hscope : j ∈ (Trackers.behind (front ++ back).toArray document.stream.tree
        (i + 1)).scope := by
      rw [← h.tokens_eq]
      exact hj
    rw [inPart_of_le (by omega)]
    exact decide_eq_true (hlist.le_of_mem_scope h.runs hi hkind hlisted hscope)

/-! ### Duplicates -/

omit hlist in
/-- The earlier attributes that are known, with other numbers. -/
theorem any_earlier (i : Nat) (p : String → Bool) :
    ((document'.viewAt (skip front.length i)).trackers.scope.filter
        (· < skip front.length i)).any
          (fun j => ((document'.viewAt (skip front.length i)).name? j).any p) =
      (((document.viewAt i).trackers.scope.filter (inPart front.length i)).filter (· < i)).any
        fun j => ((document.viewAt i).name? j).any p := by
  have hlt (j : Nat) : decide (skip front.length j < skip front.length i) = decide (j < i) := by
    refine decide_eq_decide.2 ?_
    rw [skip, skip]
    split <;> split <;> omega
  rw [(h.trackers_viewAt i).scope_eq, List.filter_map, List.any_map]
  simp only [Function.comp_def, hlt, (h.renumbered_viewAt i).name?_eq]

/-- The attributes that are known at an attribute of the second part and stand in front of it: all
    of the list, and those of the second part. -/
theorem scope_second {m : Nat} (hm : m < second.length) :
    (document.viewAt (front.length + m)).trackers.scope.filter (· < front.length + m) =
        List.range' (before.length + 1) first.length ++ List.range' front.length m ∧
      ((document.viewAt (front.length + m)).trackers.scope.filter
          (inPart front.length (front.length + m))).filter (· < front.length + m) =
        List.range' front.length m := by
  have hscope : (document.viewAt (front.length + m)).trackers.scope =
      List.range' (before.length + 1) first.length ++ List.range' front.length (m + 1) := by
    have hscope := (hlist.scope_behind hm document.stream.tree).1
    rwa [← h.tokens_eq] at hscope
  have hfirst : (List.range' (before.length + 1) first.length).filter (· < front.length + m) =
      List.range' (before.length + 1) first.length := by
    refine List.filter_eq_self.2 fun j hj => decide_eq_true ?_
    have := List.mem_range'_1.1 hj
    have := hlist.length_eq
    omega
  have hsecond : (List.range' front.length (m + 1)).filter (· < front.length + m) =
      List.range' front.length m := by
    rw [List.range'_1_concat, List.filter_append, List.filter_eq_self.2 fun j hj =>
      decide_eq_true (List.mem_range'_1.1 hj).2]
    simp
  rw [hscope, inPart_of_le (Nat.le_add_right _ _), hlist.filter_le, List.filter_append, hfirst,
    hsecond]
  exact ⟨rfl, rfl⟩

/-- Duplicates are found where an attribute is one of an earlier one of its part. -/
theorem agrees_duplicates {coexistence : Rule.Coexistence}
    (hparts : ∀ before raw behind,
      second.filterMap TokenKind.name? = before ++ raw :: behind →
        (first.filterMap TokenKind.name?).any (Rule.duplicates coexistence raw) = true →
        before.any (Rule.duplicates coexistence raw) = true)
    {i : Nat} (hi : i < (front ++ back).length) :
    Rule.Agrees (document.viewAt i) (document'.viewAt (skip front.length i))
      (Rule.noDuplicateAttributes coexistence).check := by
  refine Rule.agrees_noDuplicateAttributes (h.renumbered_viewAt i) coexistence
    fun raw value hvalue => (h.any_earlier i _).trans ?_
  have hkind := h.token_viewAt hi
  have hname : (document.viewAt i).token.kind.name? = some raw :=
    congrArg (Option.map Prod.fst) hvalue
  by_cases hother : i < front.length ∨ front.length + second.length < i
  · rw [h.filter_scope hlist hother hkind
      (.inl (by rw [show TokenKind.attribute? _ = _ from hvalue]; rfl))]
    rfl
  · obtain ⟨m, rfl⟩ : ∃ m, i = front.length + m := ⟨i - front.length, by omega⟩
    have hm : m < second.length := by
      by_contra hge
      obtain rfl : m = second.length := by omega
      rw [hlist.kind_end] at hkind
      rw [← Option.some.inj hkind] at hname
      cases hname
    have hview : (document.viewAt (front.length + m)).tokens = (front ++ back).toArray :=
      h.tokens_eq
    obtain ⟨hall, hpart⟩ := h.scope_second hlist hm
    rw [hpart, show (document.viewAt (front.length + m)).index = front.length + m from rfl, hall,
      List.any_append, ← any_filterMap_eq, ← any_filterMap_eq, hlist.names_first hview,
      hlist.names_second hview (Nat.le_of_lt hm)]
    -- An earlier duplicate in the first part comes with one in the second part.
    refine (Bool.or_eq_right_iff_imp.2 (hparts _ raw
      ((second.drop (m + 1)).filterMap TokenKind.name?) ?_)).symm
    rw [hlist.kind_second hm] at hkind
    rw [← List.filterMap_cons_some hname, ← List.filterMap_append,
      ← (List.getElem?_eq_some_iff.1 hkind).2, ← List.drop_eq_getElem_cons hm,
      List.take_append_drop]

/-! ### The ends of lists -/

/-- At the end of another list, the same is found about the list as a whole. -/
theorem check_exitAttributes_other {rule : Rule}
    (hrule : rule = .noTemplateKey ∨ rule = .requireExact) {i : Nat}
    (hi : i < front.length ∨ front.length + second.length < i)
    (hkind : ((front ++ back).map PlacedToken.kind)[i]? = some .endAttributes) :
    rule.check .exitAttributes (document'.viewAt (skip front.length i)) =
      rule.check .exitAttributes (document.viewAt i) := by
  have hview := h.renumbered_viewAt i
  have hscope := (h.trackers_viewAt i).scope_eq
  rw [h.filter_scope hlist hi hkind (.inr rfl)] at hscope
  rcases hrule with rfl | rfl
  · rw [Rule.check_noTemplateKey, Rule.check_noTemplateKey, (h.trackers_viewAt i).currentTag_eq,
      hscope, List.filterMap_map, show View.token? _ ∘ skip front.length = _ from
        funext hview.token?]
  · rw [Rule.check_requireExact, Rule.check_requireExact, hview.owner?_eq, hscope]
    cases (document.viewAt i).owner? with
    | none => rfl
    | some element =>
      simp only [Option.map_some, hview.isCustomComponent_eq, Rule.inexactAmong_map hview]

/-- In the list, no element starts. -/
theorem currentTag_behind {m : Nat} (hm : m ≤ second.length + 1) :
    (Trackers.behind document.stream.tokens document.stream.tree (front.length + m)).currentTag =
      (Trackers.behind document.stream.tokens document.stream.tree front.length).currentTag := by
  induction m with
  | zero => rfl
  | succ m ih =>
    have hlisted : ∃ kind, ((front ++ back).map PlacedToken.kind)[front.length + m]? = some kind ∧
        kind.isListed = true := by
      rcases Nat.lt_or_eq_of_le (Nat.le_of_succ_le_succ hm) with hm | rfl
      · refine ⟨second[m], ?_, TokenKind.isListed_of_isSome (hlist.second_attributes _
          (List.getElem_mem hm))⟩
        rw [hlist.kind_second hm, List.getElem?_eq_getElem hm]
      · exact ⟨_, hlist.kind_end, rfl⟩
    obtain ⟨kind, hkind, hlisted⟩ := hlisted
    have hnone : document.stream.tree.elementAt? (front.length + m) = none := by
      rw [h.tree_eq]
      exact ElementTree.elementAt?_of_isListed hkind hlisted
    rw [← Nat.add_assoc, Trackers.behind, Trackers.update, hnone, ← ih (Nat.le_of_succ_le hm)]
    exact Trackers.currentTag_afterToken ..

/-- The ends of the list and of its first part belong to the same element. -/
theorem owner?_end :
    (document.viewAt (front.length + second.length)).owner? =
        (document.viewAt (front.length - 1)).owner? ∧
      (document'.viewAt front.length).owner? =
        (document.viewAt (front.length - 1)).owner?.map (Element.renumber (skip front.length)) := by
  obtain ⟨hlast, hend⟩ := h.inList.owner?_between hlist.back_eq hlist.second_attributes
  rw [← h.kinds_eq', ← List.map_append, List.length_map, ← ElementTree.build,
    ← ElementTree.build, ← h.tree_eq, ← h.tree_eq'] at hlast hend
  have hnode := (h.renumbered_viewAt 0).node?_eq
  simp only [View.owner?, View.ownerId?]
  change ((document.stream.tree.owner? (front.length + second.length)).bind _ =
    (document.stream.tree.owner? (front.length - 1)).bind _) ∧
    (document'.stream.tree.owner? front.length).bind _ =
      ((document.stream.tree.owner? (front.length - 1)).bind _).map _
  rw [hend, ← hlast]
  refine ⟨rfl, ?_⟩
  cases document.stream.tree.owner? (front.length - 1) with
  | none => rfl
  | some id => exact hnode id

/-- At the end of the list, the attributes of both parts are known, and those of the second one
    if it is a list of its own. -/
theorem trackers_end :
    (document.viewAt (front.length + second.length)).trackers.currentTag =
        (document.viewAt (front.length - 1)).trackers.currentTag ∧
      (document.viewAt (front.length + second.length)).trackers.scope =
        List.range' (before.length + 1) first.length ++ List.range' front.length second.length ∧
      (document'.viewAt (skip front.length (front.length + second.length))).trackers.scope =
        (List.range' front.length second.length).map (skip front.length) := by
  have hkind := hlist.kind_end
  rw [List.getElem?_map, Option.map_eq_some_iff] at hkind
  obtain ⟨token, htoken, hkind⟩ := hkind
  have hscope : (document.viewAt (front.length + second.length)).trackers.scope =
      List.range' (before.length + 1) first.length ++
        List.range' front.length second.length := by
    change (Trackers.update _ document.stream.tokens _ _).scope = _
    rw [h.tokens_eq, (Trackers.update_fields _ _ htoken).2.1, hkind]
    exact (hlist.scope_behind (Nat.le_refl _) document.stream.tree).1
  refine ⟨?_, hscope, ?_⟩
  · refine (h.currentTag_behind hlist (Nat.le_refl _)).trans ?_
    change _ = (Trackers.behind _ _ (front.length - 1 + 1)).currentTag
    rw [hlist.pred_length_add]
  · rw [(h.trackers_viewAt _).scope_eq, inPart_of_le (Nat.le_add_right _ _), hscope,
      hlist.filter_le]

/-- At the end of the first part, its attributes are known. -/
theorem trackers_ending :
    (document'.viewAt front.length).trackers.scope =
        (List.range' (before.length + 1) first.length).map (skip front.length) ∧
      (document'.viewAt front.length).trackers.currentTag =
        (document.viewAt (front.length - 1)).trackers.currentTag := by
  have hbehind : (document'.viewAt front.length).trackers =
      (Trackers.behind document'.stream.tokens document'.stream.tree front.length).afterToken
        front.length .endAttributes := by
    change Trackers.update _ _ _ _ = _
    rw [h.update_between (.inl rfl), if_pos rfl]
  have hfront := h.behind_front (Nat.le_refl _)
  rw [hbehind]
  constructor
  · have hscope := (hlist.scope_behind (Nat.zero_le _) document.stream.tree).1
    rw [← h.tokens_eq, Nat.add_zero, List.range'_zero, List.append_nil] at hscope
    refine hfront.scope_eq.trans ?_
    rw [hscope, List.filter_true]
  · refine hfront.currentTag_eq.trans ?_
    change _ = (Trackers.behind _ _ (front.length - 1 + 1)).currentTag
    rw [hlist.pred_length_add]

/-- The names of the attributes of both parts, as they are known at the end of the list. -/
theorem names_end :
    (List.range' (before.length + 1) first.length).filterMap
        (document.viewAt (front.length + second.length)).name? =
          first.filterMap TokenKind.name? ∧
      (List.range' front.length second.length).filterMap
        (document.viewAt (front.length + second.length)).name? =
          second.filterMap TokenKind.name? := by
  have htokens : (document.viewAt (front.length + second.length)).tokens =
      (front ++ back).toArray := h.tokens_eq
  have hsecond := hlist.names_second htokens (Nat.le_refl _)
  rw [List.take_length] at hsecond
  exact ⟨hlist.names_first htokens, hsecond⟩

/-- What is found about the key of a `template`. -/
theorem check_noTemplateKey_end
    (hparts : Rule.noTemplateKey.Parts (document.viewAt (front.length - 1))
      (first.filterMap TokenKind.name?) (second.filterMap TokenKind.name?)) :
    Rule.noTemplateKey.check .exitAttributes (document.viewAt (front.length + second.length)) =
      Rule.noTemplateKey.check .exitAttributes (document'.viewAt front.length) ++
        Rule.noTemplateKey.check .exitAttributes
          (document'.viewAt (skip front.length (front.length + second.length))) := by
  obtain ⟨htag, hscope, hscope'⟩ := h.trackers_end hlist
  obtain ⟨hending, htag'⟩ := h.trackers_ending hlist
  obtain ⟨hfirst, hsecond⟩ := h.names_end hlist
  have htoken? : (document'.viewAt front.length).token? ∘ skip front.length =
      (document.viewAt (front.length + second.length)).token? := funext h.token?_skip
  have htoken?' : (document'.viewAt (skip front.length (front.length + second.length))).token? ∘
      skip front.length = (document.viewAt (front.length + second.length)).token? :=
    funext h.token?_skip
  rw [Rule.check_noTemplateKey, Rule.check_noTemplateKey, Rule.check_noTemplateKey,
    (h.trackers_viewAt _).currentTag_eq, htag, htag', hscope, hscope', hending,
    List.filterMap_append, List.filterMap_map, List.filterMap_map, htoken?, htoken?']
  split
  · rename_i htemplate
    obtain ⟨hkeys, hkeys'⟩ := hparts.keys rfl htemplate
    rw [← hfirst, ← hsecond] at hkeys hkeys'
    refine Rule.templateKeys_append ?_ ?_
    · rw [List.filterMap_filterMap, List.filterMap_filterMap]
      exact hkeys
    · rw [List.filterMap_filterMap, List.filterMap_filterMap]
      exact hkeys'
  · rfl

/-- What is found about listeners that should be exact. -/
theorem check_requireExact_end
    (hparts : Rule.requireExact.Parts (document.viewAt (front.length - 1))
      (first.filterMap TokenKind.name?) (second.filterMap TokenKind.name?)) :
    Rule.requireExact.check .exitAttributes (document.viewAt (front.length + second.length)) =
      Rule.requireExact.check .exitAttributes (document'.viewAt front.length) ++
        Rule.requireExact.check .exitAttributes
          (document'.viewAt (skip front.length (front.length + second.length))) := by
  obtain ⟨-, hscope, hscope'⟩ := h.trackers_end hlist
  obtain ⟨hending, -⟩ := h.trackers_ending hlist
  obtain ⟨howner, howner'⟩ := h.owner?_end hlist
  obtain ⟨hfirst, hsecond⟩ := h.names_end hlist
  have hview := h.renumbered_viewAt (front.length + second.length)
  rw [Rule.check_requireExact, Rule.check_requireExact, Rule.check_requireExact, hview.owner?_eq,
    howner, howner', hscope, hscope', hending]
  cases hsome : (document.viewAt (front.length - 1)).owner? with
  | none => rfl
  | some element =>
    obtain ⟨hlisteners, hlisteners'⟩ := hparts.listeners rfl element hsome
    rw [← hfirst, ← hsecond] at hlisteners hlisteners'
    -- The end of the first part sees the same tokens as the end of the list.
    have hcomponent : (document'.viewAt front.length).isCustomComponent
        (element.renumber (skip front.length)) =
          (document.viewAt (front.length + second.length)).isCustomComponent element :=
      hview.isCustomComponent_eq element
    have hmap (isComponent : Bool) (numbers : List Nat) :
        Rule.inexactAmong (document'.viewAt front.length) isComponent
            (numbers.map (skip front.length)) =
          Rule.inexactAmong (document.viewAt (front.length + second.length)) isComponent
            numbers :=
      Rule.inexactAmong_map hview isComponent numbers
    simp only [Option.map_some, hview.isCustomComponent_eq, hcomponent, hmap,
      Rule.inexactAmong_map hview]
    exact Rule.inexactAmong_append hlisteners hlisteners'

/-- At the end of the list, what is found about it as a whole is found at the ends of its parts. -/
theorem check_exitAttributes_end {rule : Rule}
    (hrule : rule = .noTemplateKey ∨ rule = .requireExact)
    (hparts : rule.Parts (document.viewAt (front.length - 1))
      (first.filterMap TokenKind.name?) (second.filterMap TokenKind.name?)) :
    rule.check .exitAttributes (document.viewAt (front.length + second.length)) =
      rule.check .exitAttributes (document'.viewAt front.length) ++
        rule.check .exitAttributes
          (document'.viewAt (skip front.length (front.length + second.length))) := by
  rcases hrule with rfl | rfl
  · exact h.check_noTemplateKey_end hlist hparts
  · exact h.check_requireExact_end hlist hparts

/-! ### Findings -/

omit hlist in
/-- At the start of the second part nothing is found. -/
theorem findingsAt_opening {rule : Rule} (hrule : rule.BuiltIn) :
    rule.findingsAt (document'.viewAt (front.length + 1)) = [] := by
  rw [Rule.findingsAt, h.events_between (.inr rfl), if_neg (by omega), List.flatMap_singleton,
    hrule.check_enterAttributes]

/-- A rule that is not about lists as a whole finds the same at all tokens. -/
theorem agrees_of_ne {rule : Rule} (hrule : rule.BuiltIn)
    (hends : ¬(rule = .noTemplateKey ∨ rule = .requireExact))
    (hparts : rule.Parts (document.viewAt (front.length - 1))
      (first.filterMap TokenKind.name?) (second.filterMap TokenKind.name?))
    {i : Nat} (hi : i < (front ++ back).length) :
    Rule.Agrees (document.viewAt i) (document'.viewAt (skip front.length i)) rule.check := by
  by_cases hreads : rule.ReadsList
  · cases hreads with
    | noDuplicateAttributes coexistence =>
      exact h.agrees_duplicates hlist (hparts.duplicates coexistence rfl) hi
    | noTemplateKey => exact absurd (.inl rfl) hends
    | requireExact => exact absurd (.inr rfl) hends
  · exact hrule.check_renumbered (h.renumbered_viewAt i) hreads

/-- What a rule finds at a token that is not the end of the list. -/
theorem findingsAt_skip_of_ne {rule : Rule} (hrule : rule.BuiltIn)
    (hparts : rule.Parts (document.viewAt (front.length - 1))
      (first.filterMap TokenKind.name?) (second.filterMap TokenKind.name?))
    {i : Nat} (hi : i < (front ++ back).length) (hne : i ≠ front.length + second.length) :
    rule.findingsAt (document'.viewAt (skip front.length i)) =
      rule.findingsAt (document.viewAt i) := by
  refine h.findingsAt_skip fun event hevent => ?_
  by_cases hends : rule = .noTemplateKey ∨ rule = .requireExact
  · by_cases hexit : event = .exitAttributes
    · subst hexit
      have hkind := h.token_viewAt hi
      rw [View.kind_of_exitAttributes_mem hevent] at hkind
      refine h.check_exitAttributes_other hlist hends ?_ hkind
      -- The tokens of the second part are attributes.
      by_contra hinside
      obtain ⟨m, rfl⟩ : ∃ m, i = front.length + m := ⟨i - front.length, by omega⟩
      rw [hlist.kind_second (by omega)] at hkind
      exact absurd (hlist.second_attributes _ (List.mem_of_getElem? hkind))
        (by simp [TokenKind.attribute?])
    · rw [Rule.check_of_ne_exitAttributes hends hexit, Rule.check_of_ne_exitAttributes hends hexit]
  · exact h.agrees_of_ne hlist hrule hends hparts hi event (View.ne_block_of_mem_events hevent)

/-- What a rule finds at the end of the list. -/
theorem findingsAt_end {rule : Rule} (hrule : rule.BuiltIn)
    (hparts : rule.Parts (document.viewAt (front.length - 1))
      (first.filterMap TokenKind.name?) (second.filterMap TokenKind.name?)) :
    rule.findingsAt (document.viewAt (front.length + second.length)) =
      rule.findingsAt (document'.viewAt front.length) ++ rule.findingsAt
        (document'.viewAt (skip front.length (front.length + second.length))) := by
  have hevents : (document.viewAt (front.length + second.length)).events = [.exitAttributes] := by
    have hnone : (document.viewAt (front.length + second.length)).tree.elementAt?
        (document.viewAt (front.length + second.length)).index = none := by
      change document.stream.tree.elementAt? _ = none
      rw [h.tree_eq]
      exact ElementTree.elementAt?_of_isListed hlist.kind_end rfl
    have hkind := h.token_viewAt hlist.end_lt
    rw [hlist.kind_end] at hkind
    rw [View.events, hnone, ← Option.some.inj hkind]
    rfl
  rw [Rule.findingsAt, Rule.findingsAt, Rule.findingsAt, h.events_viewAt, hevents,
    h.events_between (.inl rfl), if_pos rfl, List.flatMap_singleton, List.flatMap_singleton,
    List.flatMap_singleton]
  by_cases hends : rule = .noTemplateKey ∨ rule = .requireExact
  · exact h.check_exitAttributes_end hlist hends hparts
  · have hnil := hrule.check_exitAttributes hends
    rw [hnil, hnil, hnil]
    rfl

end Document.Parted

/-! ### All tokens -/

theorem skip_ne {n i : Nat} : skip n i ≠ n ∧ skip n i ≠ n + 1 := by
  rw [skip]
  split <;> omega

/-- The numbers of all tokens where two more tokens stand behind the first `n`. -/
theorem perm_range_skip {n size : Nat} (hn : n ≤ size) :
    (List.range (size + 2)).Perm ((n + 1) :: n :: (List.range size).map (skip n)) := by
  refine (List.perm_ext_iff_of_nodup List.nodup_range ?_).2 fun i => ?_
  · refine List.nodup_cons.2 ⟨?_, List.nodup_cons.2 ⟨?_, ?_⟩⟩
    · simp [skip_ne]
    · simp [skip_ne]
    · exact List.Nodup.map (fun _ _ => skip_inj) List.nodup_range
  · simp only [List.mem_range, List.mem_cons, List.mem_map]
    constructor
    · intro hi
      by_cases hlt : i < n
      · exact .inr (.inr ⟨i, by omega, if_pos hlt⟩)
      · by_cases hge : n + 2 ≤ i
        · refine .inr (.inr ⟨i - 2, by omega, ?_⟩)
          rw [skip, if_neg (by omega)]
          omega
        · omega
    · rintro (rfl | rfl | ⟨j, hj, rfl⟩)
      · omega
      · omega
      · rw [skip]
        split <;> omega

open scoped List in
/-- What is found at all tokens, if what is found at one of them is found at it and at the first of
    two more tokens. -/
theorem perm_flatMap_skip {α : Type} {n e size : Nat} (hn : n ≤ size) (he : e < size)
    {found found' : Nat → List α} (hskip : ∀ i < size, i ≠ e → found' (skip n i) = found i)
    (hend : found e ~ found' n ++ found' (skip n e)) (hopening : found' (n + 1) = []) :
    (List.range (size + 2)).flatMap found' ~ (List.range size).flatMap found := by
  have hall := List.perm_cons_erase (List.mem_range.2 he)
  have hothers : ((List.range size).erase e).flatMap (found' ∘ skip n) =
      ((List.range size).erase e).flatMap found := by
    refine List.flatMap_congr fun i hi => ?_
    obtain ⟨hne, hi⟩ := List.nodup_range.mem_erase_iff.1 hi
    exact hskip i (List.mem_range.1 hi) hne
  calc (List.range (size + 2)).flatMap found'
    _ ~ ((n + 1) :: n :: (List.range size).map (skip n)).flatMap found' :=
      (perm_range_skip hn).flatMap_right _
    _ = found' n ++ (List.range size).flatMap (found' ∘ skip n) := by
      rw [List.flatMap_cons, hopening, List.nil_append, List.flatMap_cons, List.flatMap_map]
      rfl
    _ ~ found' n ++ (e :: (List.range size).erase e).flatMap (found' ∘ skip n) :=
      (hall.flatMap_right _).append_left _
    _ = found' n ++ found' (skip n e) ++ ((List.range size).erase e).flatMap found := by
      rw [List.flatMap_cons, hothers, List.append_assoc]
      rfl
    _ ~ (e :: (List.range size).erase e).flatMap found := by
      rw [List.flatMap_cons]
      exact hend.symm.append_right _
    _ ~ (List.range size).flatMap found := hall.symm.flatMap_right _

namespace Document.Parted

variable {front back : List PlacedToken} {ending opening : PlacedToken}
  {document document' : Document} (h : document.Parted front back ending opening document')
  {before first second after : List TokenKind}
  (hlist : PartedList front back before first second after)

include h hlist

/-- Rules that part the list find the same in both documents, in another order. -/
theorem perm_findings {registrations : List Registration}
    (hblock : ∀ registration ∈ registrations, registration.rule.check .block document'.blockView =
      registration.rule.check .block document.blockView)
    (hrules : ∀ registration ∈ registrations, registration.rule.BuiltIn)
    (hparts : ∀ registration ∈ registrations, registration.rule.Parts
      (document.viewAt (front.length - 1)) (first.filterMap TokenKind.name?)
      (second.filterMap TokenKind.name?)) :
    (Session.findings document' registrations).Perm (Session.findings document registrations) := by
  rw [Session.findings, Session.findings, Document.views_eq, Document.views_eq, h.tokens_eq,
    h.tokens_eq', List.size_toArray, List.size_toArray, List.flatMap_map, List.flatMap_map]
  refine .append (.of_eq (List.flatMap_congr fun registration hm => ?_)) ?_
  · rw [hblock registration hm]
  have hlength : (front ++ ending :: opening :: back).length = (front ++ back).length + 2 := by
    simp only [List.length_append, List.length_cons]
    omega
  have hle : front.length ≤ (front ++ back).length := by
    rw [List.length_append]
    omega
  rw [hlength]
  refine perm_flatMap_skip hle hlist.end_lt (fun i hi hne => ?_) ?_ ?_
  · refine List.flatMap_congr fun registration hm => ?_
    rw [h.findingsAt_skip_of_ne hlist (hrules registration hm) (hparts registration hm) hi hne]
  · refine .trans (.of_eq (List.flatMap_congr fun registration hm => ?_))
      (List.flatMap_append_perm _ _ _).symm
    rw [h.findingsAt_end hlist (hrules registration hm) (hparts registration hm)]
    exact List.map_append
  · refine List.flatMap_eq_nil_iff.2 fun registration hm => ?_
    rw [h.findingsAt_opening (hrules registration hm)]
    rfl

/-- Checks of both documents report the same, in another order. -/
theorem perm_check {rules : List (Rule × Severity)}
    (hblock : ∀ entry ∈ rules,
      entry.1.check .block document'.blockView = entry.1.check .block document.blockView)
    (hrules : ∀ entry ∈ rules, entry.1.BuiltIn)
    (hparts : ∀ entry ∈ rules, entry.1.Parts (document.viewAt (front.length - 1))
      (first.filterMap TokenKind.name?) (second.filterMap TokenKind.name?)) :
    (Session.check document' rules).diagnostics.Perm
      (Session.check document rules).diagnostics := by
  obtain ⟨registrations, hentry, hreported, hreported'⟩ :=
    Session.exists_reported document document' rules
  rw [hreported, hreported', Session.reported, Session.reported, h.lines_eq]
  exact (h.perm_findings hlist (fun registration hm => hblock _ (hentry registration hm))
    (fun registration hm => hrules _ (hentry registration hm))
    fun registration hm => hparts _ (hentry registration hm)).filterMap _

end Document.Parted

end PugLint
