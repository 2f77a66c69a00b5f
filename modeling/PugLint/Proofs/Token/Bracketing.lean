import PugLint.Proofs.Element.Order
import PugLint.Proofs.Placement
import PugLint.Proofs.Token.Shape
import PugLint.Proofs.Tracker

/-!
# Brackets among tokens

Levels of indentation, lists of attributes and blocks of raw text are marked by tokens
at their starts and ends. In the tokens of a template each start has its end, and only
what belongs there stands between them. So the counters that follow the levels never
have to stop at zero, and no attribute is dropped.

* `Shaped`: how the tokens of a template are bracketed;
* `Unclipped`: what those who go through the tokens can rely on;
* `shaped_tokenize`: the tokens of every template that can be read are bracketed.
-/

namespace PugLint

/-- Whether a token starts a deeper line. -/
def TokenKind.isIndent : TokenKind → Bool
  | .indent _ => true
  | _ => false

theorem TokenKind.exists_eq_attribute {kind : TokenKind} (h : kind.attribute?.isSome = true) :
    ∃ name value escaped, kind = .attribute name value escaped := by
  unfold attribute? at h
  split at h
  · exact ⟨_, _, _, rfl⟩
  · cases h

/-- The widths of the open levels behind a token. -/
def widthsAfter (widths : List Nat) : TokenKind → List Nat
  | .indent width => width :: widths
  | .outdent => widths.tail
  | _ => widths

/-- The widths of the levels that are open behind some tokens, the deepest first. -/
def openWidths (kinds : List TokenKind) : List Nat :=
  kinds.foldl widthsAfter []

/-- The tokens of a block of raw text: its lines, and the starts of all but the first. -/
def RawBlock (kinds : List TokenKind) : Prop :=
  ∃ (first : String) (others : List String),
    kinds = .text first :: others.flatMap fun line => [.newline, .text line]

/-- How the tokens of a template are bracketed. -/
structure Shaped (kinds : List TokenKind) : Prop where
  /-- The end of the template stands once, at the end. -/
  eos : ∃ body, kinds = body ++ [.eos] ∧ .eos ∉ body
  /-- No level is closed before it is opened. -/
  outdents_le {front : List TokenKind} (h : front <+: kinds) :
    front.count .outdent ≤ front.countP TokenKind.isIndent
  /-- All levels are closed. -/
  outdents_eq : kinds.count .outdent = kinds.countP TokenKind.isIndent
  /-- The levels that are open are one deeper than the other. -/
  widths {front : List TokenKind} (h : front <+: kinds) : (openWidths front).Pairwise (· > ·)
  /-- Attributes follow the start of a list up to its end. -/
  startAttributes {front back : List TokenKind} (h : kinds = front ++ .startAttributes :: back) :
    ∃ attributes rest, back = attributes ++ .endAttributes :: rest ∧
      ∀ kind ∈ attributes, kind.attribute?.isSome = true
  /-- Attributes stand in front of the end of a list back to its start. -/
  endAttributes {front back : List TokenKind} (h : kinds = front ++ .endAttributes :: back) :
    ∃ before attributes, front = before ++ .startAttributes :: attributes ∧
      ∀ kind ∈ attributes, kind.attribute?.isSome = true
  /-- Attributes stand in lists. -/
  listed {front back : List TokenKind} {kind : TokenKind} (h : kinds = front ++ kind :: back)
    (hkind : kind.attribute?.isSome = true) :
    ∃ before attributes, front = before ++ .startAttributes :: attributes ∧
      ∀ kind ∈ attributes, kind.attribute?.isSome = true
  /-- Raw text follows the start of a block up to its end. -/
  startRawText {front back : List TokenKind} (h : kinds = front ++ .startRawText :: back) :
    ∃ block rest, back = block ++ .endRawText :: rest ∧ RawBlock block
  /-- Raw text stands in front of the end of a block back to its start. -/
  endRawText {front back : List TokenKind} (h : kinds = front ++ .endRawText :: back) :
    ∃ before block, front = before ++ .startRawText :: block ∧ RawBlock block
  /-- No deeper line follows a block of raw text. -/
  afterRawText {front back : List TokenKind} (h : kinds = front ++ .endRawText :: back) :
    ∃ next rest, back = next :: rest ∧ (next = .newline ∨ next = .outdent ∨ next = .eos)

/-- What those who go through the tokens can rely on: the end of a level always closes
    one, and every attribute is kept. -/
structure Unclipped (tokens : List PlacedToken) : Prop where
  /-- The depth falls by one. -/
  depth {i : Nat} (h : tokens[i]?.map PlacedToken.kind = some .outdent) (tree : ElementTree) :
    (Trackers.behind tokens.toArray tree (i + 1)).depth + 1 =
      (Trackers.behind tokens.toArray tree i).depth
  /-- The level of the line falls by one. -/
  level {i : Nat} (h : tokens[i]?.map PlacedToken.kind = some .outdent) :
    (ElementTree.Builder.start.steps 0 ((tokens.take (i + 1)).map PlacedToken.kind)).level + 1 =
      (ElementTree.Builder.start.steps 0 ((tokens.take i).map PlacedToken.kind)).level
  /-- The attribute is the last one of the list. -/
  scope {i : Nat} (h : (tokens[i]?.bind PlacedToken.attribute?).isSome = true)
    (tree : ElementTree) :
    (Trackers.behind tokens.toArray tree (i + 1)).scope =
      (Trackers.behind tokens.toArray tree i).scope ++ [i]

namespace Shape

/-! ### Levels -/

variable {s t u : State} {kind : TokenKind} {kinds : List TokenKind}

theorem Step.widths_eq (h : Step s kind t) : t.widths = widthsAfter s.widths kind := by
  cases h with
  | plain hplain => cases kind <;> first | rfl | cases hplain
  | _ => rfl

theorem Runs.widths_eq (h : Runs s kinds t) : t.widths = kinds.foldl widthsAfter s.widths := by
  induction h with
  | nil => rfl
  | cons hstep _ ih => rw [List.foldl_cons, ← hstep.widths_eq, ih]

theorem Step.count_eq (h : Step s kind t) :
    s.widths.length + [kind].countP TokenKind.isIndent =
      t.widths.length + [kind].count .outdent := by
  cases h with
  | plain hplain => cases kind <;> first | rfl | cases hplain
  | _ => rfl

/-- The levels that are opened are closed or still open. -/
theorem Runs.count_eq (h : Runs s kinds t) :
    s.widths.length + kinds.countP TokenKind.isIndent =
      t.widths.length + kinds.count .outdent := by
  induction h with
  | nil => rfl
  | @cons s t u kind kinds hstep _ ih =>
    have hcount := hstep.count_eq
    rw [← List.singleton_append, List.countP_append, List.count_append]
    omega

theorem Step.pairwise_widths (h : Step s kind t) (hs : s.widths.Pairwise (· > ·)) :
    t.widths.Pairwise (· > ·) := by
  cases h with
  | @indent width widths hlt =>
    refine List.pairwise_cons.2 ⟨fun outer houter => ?_, hs⟩
    cases widths with
    | nil => exact absurd houter List.not_mem_nil
    | cons inner outers =>
      have hinner : inner < width := hlt inner rfl
      rcases List.mem_cons.1 houter with rfl | houter
      · exact hinner
      · exact Nat.lt_trans ((List.pairwise_cons.1 hs).1 outer houter) hinner
  | outdent _ => exact hs.tail
  | _ => exact hs

theorem Runs.pairwise_widths (h : Runs s kinds t) (hs : s.widths.Pairwise (· > ·)) :
    t.widths.Pairwise (· > ·) := by
  induction h with
  | nil => exact hs
  | cons hstep _ ih => exact ih (hstep.pairwise_widths hs)

/-- The end of a level closes the deepest one. -/
theorem Step.length_outdent (h : Step s .outdent t) : t.widths.length + 1 = s.widths.length := by
  cases h with
  | plain hplain => cases hplain
  | outdent => rfl

/-! ### The end -/

theorem Step.ne_done (h : Step s kind t) : s.mode ≠ .done := by
  cases h with
  | newline hmode | outdent hmode | eos hmode => rcases hmode with rfl | rfl <;> exact nofun
  | _ => exact nofun

theorem Step.eq_eos_iff (h : Step s kind t) : kind = .eos ↔ t.mode = .done := by
  cases h with
  | plain hplain =>
    refine iff_of_false ?_ nofun
    rintro rfl
    cases hplain
  | eos => exact iff_of_true rfl rfl
  | _ => exact iff_of_false nofun nofun

/-- The machine stops behind the end of the template, and there alone. -/
theorem Runs.exists_eos (h : Runs s kinds State.stop) (hs : s.mode ≠ .done) :
    ∃ body, kinds = body ++ [.eos] ∧ .eos ∉ body := by
  generalize hstop : State.stop = stop at h
  induction h with
  | nil =>
    subst hstop
    exact absurd rfl hs
  | @cons s t u kind kinds hstep hruns ih =>
    by_cases hmode : t.mode = .done
    · have hnil : kinds = [] := by
        cases hruns with
        | nil => rfl
        | cons hnext _ => exact absurd hmode hnext.ne_done
      exact ⟨[], by rw [hstep.eq_eos_iff.2 hmode, hnil, List.nil_append], List.not_mem_nil⟩
    · obtain ⟨body, rfl, hbody⟩ := ih hmode hstop
      have hkind : .eos ≠ kind := fun heq => hmode (hstep.eq_eos_iff.1 heq.symm)
      exact ⟨kind :: body, rfl, List.not_mem_cons_of_ne_of_not_mem hkind hbody⟩

/-! ### Lists of attributes -/

theorem Step.mode_of_attribute {name : String} {value : Option String} {escaped : Bool}
    (h : Step s (.attribute name value escaped) t) : s.mode = .list := by
  cases h with
  | plain hplain => cases hplain
  | listed => rfl

/-- A list of attributes comes to its end. -/
theorem Runs.exists_endAttributes (h : Runs s kinds State.stop) (hs : s.mode = .list) :
    ∃ attributes rest, kinds = attributes ++ .endAttributes :: rest ∧
      ∀ kind ∈ attributes, kind.attribute?.isSome = true := by
  generalize hstop : State.stop = stop at h
  induction h with
  | nil =>
    subst hstop
    cases hs
  | @cons s t u kind kinds hstep hruns ih =>
    cases hstep with
    | listed =>
      obtain ⟨attributes, rest, rfl, hattributes⟩ := ih rfl hstop
      exact ⟨_ :: attributes, rest, rfl, List.forall_mem_cons.2 ⟨rfl, hattributes⟩⟩
    | endAttributes => exact ⟨[], kinds, rfl, List.forall_mem_nil _⟩
    | newline hmode | outdent hmode | eos hmode =>
      rcases hmode with rfl | rfl <;> cases hs
    | _ => cases hs

/-- In a list of attributes, its start has been met, and attributes since then. -/
theorem Runs.exists_startAttributes (h : Runs s kinds t) (hs : s.mode ≠ .list)
    (ht : t.mode = .list) :
    ∃ before attributes, kinds = before ++ .startAttributes :: attributes ∧
      ∀ kind ∈ attributes, kind.attribute?.isSome = true := by
  induction kinds using List.reverseRecOn generalizing t with
  | nil =>
    cases h
    exact absurd ht hs
  | append_singleton kinds kind ih =>
    obtain ⟨middle, hruns, hstep⟩ := h.exists_concat
    cases hstep with
    | startAttributes => exact ⟨kinds, [], rfl, List.forall_mem_nil _⟩
    | listed =>
      obtain ⟨before, attributes, rfl, hattributes⟩ := ih hruns rfl
      refine ⟨before, attributes ++ [_], by rw [List.append_assoc, List.cons_append], ?_⟩
      exact List.forall_mem_append.2 ⟨hattributes, List.forall_mem_singleton.2 rfl⟩
    | _ => cases ht

/-! ### Blocks of raw text -/

/-- A block of raw text comes to its end. -/
theorem Runs.exists_endRawText (h : Runs s kinds State.stop) :
    (s.mode = .rawText → ∃ (others : List String) (rest : List TokenKind),
      kinds = (others.flatMap fun line => [.newline, .text line]) ++ .endRawText :: rest) ∧
    (s.mode = .rawStart → ∃ block rest, kinds = block ++ .endRawText :: rest ∧
      RawBlock block) := by
  generalize hstop : State.stop = stop at h
  induction h with
  | nil =>
    subst hstop
    exact ⟨nofun, nofun⟩
  | @cons s t u kind kinds hstep hruns ih =>
    obtain ⟨htext, hstart⟩ := ih hstop
    cases hstep with
    | @rawText widths value =>
      refine ⟨nofun, fun _ => ?_⟩
      obtain ⟨others, rest, rfl⟩ := htext rfl
      exact ⟨_, rest, rfl, value, others, rfl⟩
    | rawNewline =>
      refine ⟨fun _ => ?_, nofun⟩
      obtain ⟨_, rest, rfl, first, others, rfl⟩ := hstart rfl
      exact ⟨first :: others, rest, rfl⟩
    | endRawText => exact ⟨fun _ => ⟨[], kinds, rfl⟩, nofun⟩
    | newline hmode | outdent hmode | eos hmode =>
      rcases hmode with rfl | rfl <;> exact ⟨nofun, nofun⟩
    | _ => exact ⟨nofun, nofun⟩

/-- In a block of raw text, its start has been met, and its lines since then. -/
theorem Runs.exists_startRawText (h : Runs State.start kinds t) :
    (t.mode = .rawText → ∃ before block, kinds = before ++ .startRawText :: block ∧
      RawBlock block) ∧
    (t.mode = .rawStart → (∃ before, kinds = before ++ [.startRawText]) ∨
      ∃ before block, kinds = before ++ .startRawText :: block ++ [.newline] ∧
        RawBlock block) := by
  induction kinds using List.reverseRecOn generalizing t with
  | nil =>
    cases h
    exact ⟨nofun, nofun⟩
  | append_singleton kinds kind ih =>
    obtain ⟨middle, hruns, hstep⟩ := h.exists_concat
    obtain ⟨htext, hstart⟩ := ih hruns
    cases hstep with
    | startRawText => exact ⟨nofun, fun _ => .inl ⟨kinds, rfl⟩⟩
    | @rawText widths value =>
      refine ⟨fun _ => ?_, nofun⟩
      rcases hstart rfl with ⟨before, rfl⟩ | ⟨before, _, rfl, first, others, rfl⟩
      · exact ⟨before, [.text value], by rw [List.append_assoc]; rfl, value, [], rfl⟩
      · refine ⟨before, _, ?_, first, others ++ [value], rfl⟩
        simp only [List.flatMap_append, List.flatMap_singleton, List.append_assoc,
          List.cons_append, List.nil_append]
    | rawNewline =>
      refine ⟨nofun, fun _ => .inr ?_⟩
      obtain ⟨before, block, rfl, hblock⟩ := htext rfl
      exact ⟨before, block, rfl, hblock⟩
    | _ => exact ⟨nofun, nofun⟩

/-- What follows a block of raw text. -/
theorem Runs.exists_next (h : Runs s kinds State.stop) (hs : s.mode = .rawEnd) :
    ∃ next rest, kinds = next :: rest ∧
      (next = .newline ∨ next = .outdent ∨ next = .eos) := by
  generalize hstop : State.stop = stop at h
  cases h with
  | nil =>
    subst hstop
    cases hs
  | @cons s t u kind kinds hstep hruns =>
    refine ⟨kind, kinds, rfl, ?_⟩
    cases hstep with
    | newline => exact .inl rfl
    | outdent => exact .inr (.inl rfl)
    | eos => exact .inr (.inr rfl)
    | _ => cases hs

/-- The states in front of a token and behind it. -/
theorem Runs.exists_split {front back : List TokenKind}
    (h : Runs s (front ++ kind :: back) u) :
    ∃ t t', Runs s front t ∧ Step t kind t' ∧ Runs t' back u := by
  obtain ⟨t, hfront, hback⟩ := h.exists_append
  cases hback with
  | cons hstep hback => exact ⟨t, _, hfront, hstep, hback⟩

/-- What the machine accepts is bracketed. -/
theorem Runs.shaped (h : Runs State.start kinds State.stop) : Shaped kinds where
  eos := h.exists_eos nofun
  outdents_le {front} hfront := by
    obtain ⟨back, rfl⟩ := hfront
    obtain ⟨t, hruns, _⟩ := h.exists_append
    have hcount : 0 + _ = _ := hruns.count_eq
    omega
  outdents_eq := by
    have hcount : 0 + _ = 0 + _ := h.count_eq
    omega
  widths {front} hfront := by
    obtain ⟨back, rfl⟩ := hfront
    obtain ⟨t, hruns, _⟩ := h.exists_append
    have hwidths := hruns.pairwise_widths List.Pairwise.nil
    rwa [hruns.widths_eq] at hwidths
  startAttributes {front back} heq := by
    subst heq
    obtain ⟨t, t', _, hstep, hback⟩ := h.exists_split
    refine hback.exists_endAttributes ?_
    cases hstep with
    | plain hplain => cases hplain
    | startAttributes => rfl
  endAttributes {front back} heq := by
    subst heq
    obtain ⟨t, t', hfront, hstep, _⟩ := h.exists_split
    refine hfront.exists_startAttributes nofun ?_
    cases hstep with
    | plain hplain => cases hplain
    | endAttributes => rfl
  listed {front back kind} heq hkind := by
    subst heq
    obtain ⟨name, value, escaped, rfl⟩ := TokenKind.exists_eq_attribute hkind
    obtain ⟨t, t', hfront, hstep, _⟩ := h.exists_split
    exact hfront.exists_startAttributes nofun hstep.mode_of_attribute
  startRawText {front back} heq := by
    subst heq
    obtain ⟨t, t', _, hstep, hback⟩ := h.exists_split
    refine hback.exists_endRawText.2 ?_
    cases hstep with
    | plain hplain => cases hplain
    | startRawText => rfl
  endRawText {front back} heq := by
    subst heq
    obtain ⟨t, t', hfront, hstep, _⟩ := h.exists_split
    refine hfront.exists_startRawText.1 ?_
    cases hstep with
    | plain hplain => cases hplain
    | endRawText => rfl
  afterRawText {front back} heq := by
    subst heq
    obtain ⟨t, t', _, hstep, hback⟩ := h.exists_split
    refine hback.exists_next ?_
    cases hstep with
    | plain hplain => cases hplain
    | endRawText => rfl

/-- The states in front of the token with a given number and behind it. -/
theorem Runs.exists_at (h : Runs s kinds u) {i : Nat} (hi : kinds[i]? = some kind) :
    ∃ t t', Runs s (kinds.take i) t ∧ Step t kind t' ∧ Runs s (kinds.take (i + 1)) t' := by
  obtain ⟨hlt, rfl⟩ := List.getElem?_eq_some_iff.1 hi
  have hsplit : kinds = kinds.take i ++ kinds[i] :: kinds.drop (i + 1) := by
    rw [← List.drop_eq_getElem_cons hlt, List.take_append_drop]
  rw [hsplit] at h
  obtain ⟨t, t', hfront, hstep, _⟩ := h.exists_split
  refine ⟨t, t', hfront, hstep, ?_⟩
  rw [List.take_add_one, hi]
  exact hfront.append (.single hstep)

end Shape

/-! ### Going through the tokens -/

section Levels

variable {tokens : List PlacedToken}

theorem ElementTree.Builder.level_step (b : Builder) (i : Nat) (kind : TokenKind)
    {widths : List Nat} (hb : b.level = widths.length) :
    (b.step i kind).level = (widthsAfter widths kind).length := by
  unfold step
  split
  case h_2 => exact congrArg (· + 1) hb
  case h_3 =>
    rw [widthsAfter, List.length_tail, ← hb]
    rfl
  case h_1 | h_7 | h_8 => split <;> exact hb
  case h_13 =>
    rw [widthsAfter]
    · exact hb
    all_goals assumption
  all_goals exact hb

/-- The level of the line is the number of open levels. -/
theorem ElementTree.Builder.level_steps (b : Builder) (i : Nat) (kinds : List TokenKind)
    {widths : List Nat} (hb : b.level = widths.length) :
    (b.steps i kinds).level = (kinds.foldl widthsAfter widths).length := by
  induction kinds generalizing b i widths with
  | nil => exact hb
  | cons kind kinds ih => exact ih _ _ (b.level_step i kind hb)

theorem ElementTree.Builder.level_steps_start (kinds : List TokenKind) :
    (start.steps 0 kinds).level = (openWidths kinds).length :=
  level_steps _ _ _ rfl

/-- Elements apart, a token changes what its kind says. -/
theorem Trackers.update_fields (trackers : Trackers) (tree : ElementTree) {i : Nat}
    {token : PlacedToken} (h : tokens[i]? = some token) :
    (trackers.update tokens.toArray tree i).depth = (trackers.afterToken i token.kind).depth ∧
      (trackers.update tokens.toArray tree i).scope =
        (trackers.afterToken i token.kind).scope ∧
      (trackers.update tokens.toArray tree i).scopeOpen =
        (trackers.afterToken i token.kind).scopeOpen := by
  rw [update, List.getElem?_toArray, h, Option.map_some, Option.getD_some]
  split
  · split
    · exact ⟨rfl, rfl, rfl⟩
    · exact ⟨rfl, rfl, rfl⟩
  · exact ⟨rfl, rfl, rfl⟩

theorem Trackers.depth_afterToken (trackers : Trackers) (i : Nat) (kind : TokenKind)
    {widths : List Nat} (hdepth : trackers.depth = widths.length) :
    (trackers.afterToken i kind).depth = (widthsAfter widths kind).length := by
  unfold afterToken
  split
  case h_1 => exact congrArg (· + 1) hdepth
  case h_2 =>
    rw [widthsAfter, List.length_tail, ← hdepth]
  case h_4 => split <;> exact hdepth
  case h_6 =>
    rw [widthsAfter]
    · exact hdepth
    all_goals assumption
  all_goals exact hdepth

/-- A list of attributes is open when the machine stands in it. -/
theorem Shape.Step.scopeOpen_afterToken {s t : State} {kind : TokenKind} (h : Step s kind t)
    {trackers : Trackers} (hopen : trackers.scopeOpen = decide (s.mode = .list)) (i : Nat) :
    (trackers.afterToken i kind).scopeOpen = decide (t.mode = .list) := by
  cases h with
  | plain hplain => cases kind <;> first | exact hopen | cases hplain
  | startAttributes | endAttributes => rfl
  | listed =>
    rw [Trackers.afterToken]
    split <;> exact hopen
  | newline hmode | outdent hmode | eos hmode => rcases hmode with rfl | rfl <;> exact hopen
  | _ => exact hopen

/-- What is known of levels and lists behind the first tokens. -/
theorem Trackers.behind_of_runs {n : Nat} (hn : n ≤ tokens.length) {t : Shape.State}
    (h : Shape.Runs .start ((tokens.map PlacedToken.kind).take n) t) (tree : ElementTree) :
    (behind tokens.toArray tree n).depth = t.widths.length ∧
      (behind tokens.toArray tree n).scopeOpen = decide (t.mode = .list) := by
  induction n generalizing t with
  | zero =>
    cases h
    exact ⟨rfl, rfl⟩
  | succ n ih =>
    have htoken := List.getElem?_eq_getElem hn
    rw [List.take_add_one, List.getElem?_map, htoken] at h
    obtain ⟨s, hruns, hstep⟩ := h.exists_concat
    obtain ⟨hdepth, hopen⟩ := ih (Nat.le_of_lt hn) hruns
    obtain ⟨hdepth', _, hopen'⟩ := (behind tokens.toArray tree n).update_fields tree htoken
    rw [behind, hdepth', hopen', hstep.widths_eq]
    exact ⟨depth_afterToken _ _ _ hdepth, hstep.scopeOpen_afterToken hopen n⟩

/-- Going through tokens that the machine accepts, nothing is clipped. -/
theorem Shape.Runs.unclipped (h : Runs .start (tokens.map PlacedToken.kind) .stop) :
    Unclipped tokens where
  depth {i} hi tree := by
    rw [← List.getElem?_map] at hi
    have hlt : i < tokens.length := by
      rw [← List.length_map (f := PlacedToken.kind)]
      exact (List.getElem?_eq_some_iff.1 hi).1
    obtain ⟨t, t', hfront, hstep, hnext⟩ := h.exists_at hi
    rw [(Trackers.behind_of_runs hlt hnext tree).1,
      (Trackers.behind_of_runs (Nat.le_of_lt hlt) hfront tree).1]
    exact hstep.length_outdent
  level {i} hi := by
    rw [← List.getElem?_map] at hi
    obtain ⟨t, t', hfront, hstep, hnext⟩ := h.exists_at hi
    have hbefore : openWidths _ = t.widths := hfront.widths_eq.symm
    have hbehind : openWidths _ = t'.widths := hnext.widths_eq.symm
    rw [List.map_take, List.map_take, ElementTree.Builder.level_steps_start,
      ElementTree.Builder.level_steps_start, hbefore, hbehind]
    exact hstep.length_outdent
  scope {i} hi tree := by
    obtain ⟨pair, hpair⟩ := Option.isSome_iff_exists.1 hi
    obtain ⟨token, htoken, hattribute⟩ := Option.bind_eq_some_iff.1 hpair
    obtain ⟨name, value, escaped, hkind⟩ :=
      TokenKind.exists_eq_attribute (Option.isSome_of_eq_some hattribute)
    have hlt := (List.getElem?_eq_some_iff.1 htoken).1
    have hmap : (tokens.map PlacedToken.kind)[i]? = some (.attribute name value escaped) := by
      rw [List.getElem?_map, htoken, Option.map_some, hkind]
    obtain ⟨t, t', hfront, hstep, _⟩ := h.exists_at hmap
    have hopen : (Trackers.behind tokens.toArray tree i).scopeOpen = true := by
      rw [(Trackers.behind_of_runs (Nat.le_of_lt hlt) hfront tree).2]
      exact decide_eq_true hstep.mode_of_attribute
    rw [Trackers.behind, (Trackers.update_fields _ tree htoken).2.1, hkind, Trackers.afterToken,
      if_pos hopen]

end Levels

/-- The end of a template stands last among its tokens only. -/
theorem eos_not_mem_dropLast {template : String} {tokens : List Token}
    (h : tokenize template = .ok tokens) : .eos ∉ (tokens.map Token.kind).dropLast := by
  obtain ⟨body, hbody, heos⟩ := (runs_tokenize h).exists_eos nofun
  rwa [hbody, List.dropLast_concat]

/-- The tokens of every template that can be read are bracketed, so that nothing is
    clipped where they are gone through. -/
theorem shaped_tokenize {template : String} {tokens : List Token}
    (h : tokenize template = .ok tokens) :
    Shaped (tokens.map Token.kind) ∧
      ∀ offset line, Unclipped (placeTokens tokens template.toList offset line) := by
  have hruns := runs_tokenize h
  refine ⟨hruns.shaped, fun offset line => Shape.Runs.unclipped ?_⟩
  rwa [map_kind_placeTokens]

/-- A template with a list of attributes and a block of raw text. -/
def noteTemplate : String :=
  "ul\n  li(a b)\n  p.\n    x\n     y\nq"

/-- The tokens of that template. -/
def noteTokens : List Token :=
  [⟨.tag "ul", ⟨1, 1⟩, ⟨1, 3⟩⟩, ⟨.indent 2, ⟨2, 1⟩, ⟨2, 3⟩⟩, ⟨.tag "li", ⟨2, 3⟩, ⟨2, 5⟩⟩,
    ⟨.startAttributes, ⟨2, 5⟩, ⟨2, 6⟩⟩, ⟨.attribute "a" none true, ⟨2, 6⟩, ⟨2, 7⟩⟩,
    ⟨.attribute "b" none true, ⟨2, 8⟩, ⟨2, 9⟩⟩, ⟨.endAttributes, ⟨2, 9⟩, ⟨2, 10⟩⟩,
    ⟨.newline, ⟨3, 1⟩, ⟨3, 3⟩⟩, ⟨.tag "p", ⟨3, 3⟩, ⟨3, 4⟩⟩, ⟨.dot, ⟨3, 4⟩, ⟨3, 5⟩⟩,
    ⟨.startRawText, ⟨4, 5⟩, ⟨4, 5⟩⟩, ⟨.text "x", ⟨4, 5⟩, ⟨4, 6⟩⟩, ⟨.newline, ⟨5, 1⟩, ⟨5, 5⟩⟩,
    ⟨.text " y", ⟨5, 5⟩, ⟨5, 7⟩⟩, ⟨.endRawText, ⟨5, 7⟩, ⟨5, 7⟩⟩, ⟨.outdent, ⟨6, 1⟩, ⟨6, 1⟩⟩,
    ⟨.tag "q", ⟨6, 1⟩, ⟨6, 2⟩⟩, ⟨.eos, ⟨6, 2⟩, ⟨6, 2⟩⟩]

theorem tokenize_note : tokenize noteTemplate = .ok noteTokens := by
  decide +kernel

/-- That template is bracketed. -/
theorem shaped_tokenize_note :
    tokenize noteTemplate = .ok noteTokens ∧ Shaped (noteTokens.map Token.kind) ∧
      ∀ offset line, Unclipped (placeTokens noteTokens noteTemplate.toList offset line) :=
  ⟨tokenize_note, shaped_tokenize tokenize_note⟩

end PugLint
