import Mathlib.Order.Lattice.Nat
import PugLint.Proofs.Element.Consistency
import PugLint.Proofs.Token.Bracketing

/-!
# Intervals of elements

An element has the tokens from its first one up to the one that closes it. As long as
nothing follows the end of the template, the open elements are all those that a new
one is nested in. So the intervals of elements are nested like the elements, and the
owner of a token is the innermost element that has it.

* `Laminar`: the intervals of elements, some of which are open, agree with their
  nesting;
* `Laminar.opens`, `Laminar.closes`: a new element and the end of some elements keep
  them so;
* `ElementTree.Builder.Spanned`: the intervals and owners that a builder has found;
* `ElementTree.Nested`: how the intervals of all elements lie to each other;
* `ElementTree.nested_build`: the elements of a list of tokens in which nothing follows
  the end of the template are nested by their intervals.
-/

namespace PugLint

/-! ### Intervals -/

/-- An element has a token: it starts there or in front of it, and it is open or ends
    behind it. -/
def Covers (intervals : List (Nat × Nat)) (opened : List Nat) (id i : Nat) : Prop :=
  ∃ interval, intervals[id]? = some interval ∧ interval.1 ≤ i ∧
    (id ∈ opened ∨ i < interval.2)

/-- After `count` tokens, the intervals of all elements agree with their nesting; the
    interval of an open element has no end yet. -/
structure Laminar (parents : List (Option Nat)) (intervals : List (Nat × Nat))
    (opened : List Nat) (count : Nat) : Prop where
  /-- Every element has an interval. -/
  length : intervals.length = parents.length
  /-- Elements start at tokens that have been read. -/
  start_lt {id : Nat} {interval : Nat × Nat} (h : intervals[id]? = some interval) :
    interval.1 < count
  /-- A closed element ends behind its start, at a token that has been read. -/
  bounds {id : Nat} {interval : Nat × Nat} (h : intervals[id]? = some interval)
    (hid : id ∉ opened) : interval.1 < interval.2 ∧ interval.2 < count
  /-- What an open element is nested in is open. -/
  parent_open {p c : Nat} (h : IsParent parents p c) (hc : c ∈ opened) : p ∈ opened
  /-- An element ends no later than the one that it is nested in. -/
  stop_le {p c : Nat} {outer inner : Nat × Nat} (h : IsParent parents p c)
    (hp : intervals[p]? = some outer) (hc : intervals[c]? = some inner) (hclosed : p ∉ opened) :
    inner.2 ≤ outer.2
  /-- An element has the first tokens of those nested in it, and of no others. -/
  covers_iff {a d : Nat} {interval : Nat × Nat} (ha : a < intervals.length)
    (hd : intervals[d]? = some interval) :
    Covers intervals opened a interval.1 ↔ a = d ∨ IsAncestor parents a d

/-- The intervals when some elements end at a token. -/
def endedAt (ended : List Nat) (token : Nat) (intervals : List (Nat × Nat)) :
    List (Nat × Nat) :=
  intervals.mapIdx fun id interval => (interval.1, if id ∈ ended then token else interval.2)

theorem endedAt_cases {ended : List Nat} {token : Nat} {intervals : List (Nat × Nat)} {id : Nat}
    {interval : Nat × Nat} (h : (endedAt ended token intervals)[id]? = some interval) :
    ∃ old, intervals[id]? = some old ∧
      interval = (old.1, if id ∈ ended then token else old.2) := by
  rw [endedAt, List.getElem?_mapIdx, Option.map_eq_some_iff] at h
  exact h.imp fun _ => And.imp_right Eq.symm

/-- The interval of an element is an old one or that of the new element. -/
theorem concat_cases {intervals : List (Nat × Nat)} {interval found : Nat × Nat} {id : Nat}
    (h : (intervals ++ [interval])[id]? = some found) :
    (id < intervals.length ∧ intervals[id]? = some found) ∨
      (id = intervals.length ∧ found = interval) := by
  have hlength := (List.getElem?_eq_some_iff.1 h).1
  rw [List.length_append, List.length_singleton] at hlength
  rcases Nat.lt_or_eq_of_le (Nat.le_of_lt_succ hlength) with hold | rfl
  · rw [List.getElem?_append_left hold] at h
    exact .inl ⟨hold, h⟩
  · rw [List.getElem?_concat_length] at h
    exact .inr ⟨rfl, (Option.some.inj h).symm⟩

/-- A new element changes nothing for the old ones. -/
theorem covers_concat_iff {intervals : List (Nat × Nat)} {opened : List Nat}
    {interval : Nat × Nat} {id i : Nat} (hid : id < intervals.length) :
    Covers (intervals ++ [interval]) (intervals.length :: opened) id i ↔
      Covers intervals opened id i := by
  have hopen : id ∈ intervals.length :: opened ↔ id ∈ opened :=
    List.mem_cons.trans (or_iff_right (Nat.ne_of_lt hid))
  rw [Covers, Covers, List.getElem?_append_left hid]
  simp only [hopen]

/-- A new element changes nothing for the tokens in front of it. -/
theorem covers_concat_of_lt {intervals : List (Nat × Nat)} {opened : List Nat}
    {interval : Nat × Nat} {id i : Nat} (hi : i < interval.1) :
    Covers (intervals ++ [interval]) (intervals.length :: opened) id i ↔
      Covers intervals opened id i := by
  by_cases hid : id < intervals.length
  · exact covers_concat_iff hid
  · refine iff_of_false ?_ ?_
    · rintro ⟨other, hother, hle, _⟩
      rw [List.getElem?_append_right (Nat.not_lt.1 hid), List.getElem?_singleton] at hother
      split at hother
      · cases hother
        exact Nat.not_lt.2 hle hi
      · cases hother
    · rintro ⟨other, hother, _⟩
      exact hid (List.getElem?_eq_some_iff.1 hother).1

/-- The end of some open elements changes nothing for the tokens in front. -/
theorem covers_endedAt_iff {ended remaining : List Nat} {token : Nat}
    {intervals : List (Nat × Nat)} {id i : Nat} (hi : i < token) :
    Covers (endedAt ended token intervals) remaining id i ↔
      Covers intervals (ended ++ remaining) id i := by
  rw [Covers, Covers, endedAt, List.getElem?_mapIdx]
  simp only [Option.map_eq_some_iff, exists_exists_and_eq_and, List.mem_append]
  refine exists_congr fun interval => and_congr_right fun _ => and_congr_right fun _ => ?_
  by_cases hid : id ∈ ended
  · rw [if_pos hid]
    exact iff_of_true (.inr hi) (.inl (.inl hid))
  · rw [if_neg hid, or_iff_right hid]

namespace Laminar

variable {parents : List (Option Nat)} {intervals : List (Nat × Nat)} {opened : List Nat}
  {count : Nat}

theorem nil : Laminar [] [] [] 0 where
  length := rfl
  start_lt h := nomatch h
  bounds h := nomatch h
  parent_open h := nomatch h
  stop_le h := nomatch h
  covers_iff h := nomatch h

/-- A further token that opens and closes nothing. -/
theorem succ (h : Laminar parents intervals opened count) :
    Laminar parents intervals opened (count + 1) where
  length := h.length
  start_lt hid := Nat.lt_succ_of_lt (h.start_lt hid)
  bounds hid hopen := (h.bounds hid hopen).imp_right Nat.lt_succ_of_lt
  parent_open := h.parent_open
  stop_le := h.stop_le
  covers_iff := h.covers_iff

theorem ancestor_open (h : Laminar parents intervals opened count) {a d : Nat}
    (ha : IsAncestor parents a d) (hd : d ∈ opened) : a ∈ opened := by
  induction ha with
  | single hp => exact h.parent_open hp hd
  | tail _ hp ih => exact ih (h.parent_open hp hd)

/-- The elements that have the last token or the next one are the open ones. -/
theorem covers_iff_mem (h : Laminar parents intervals opened count) {id i : Nat}
    (hid : id < intervals.length) (hi : count ≤ i + 1) :
    Covers intervals opened id i ↔ id ∈ opened := by
  constructor
  · rintro ⟨interval, hinterval, _, hopen | hlt⟩
    · exact hopen
    · by_contra hclosed
      have := (h.bounds hinterval hclosed).2
      omega
  · intro hopen
    have hinterval := List.getElem?_eq_getElem hid
    have := h.start_lt hinterval
    exact ⟨_, hinterval, by omega, .inl hopen⟩

/-- A new element starts in the open elements, and in no others. -/
theorem covers_opens_iff (h : Laminar parents intervals opened count)
    (hpreorder : InPreorder parents)
    (hnested : ∀ id ∈ opened, ∃ p ∈ opened.head?, id = p ∨ IsAncestor parents id p)
    (hlt : ∀ id ∈ opened, id < parents.length) {a d : Nat} {interval : Nat × Nat}
    (ha : a ≤ intervals.length) (hd : (intervals ++ [(count, count + 1)])[d]? = some interval) :
    Covers (intervals ++ [(count, count + 1)]) (intervals.length :: opened) a interval.1 ↔
      a = d ∨ IsAncestor (parents ++ [opened.head?]) a d := by
  rcases concat_cases hd with ⟨hd, hold⟩ | ⟨rfl, rfl⟩
  · have hparents := h.length ▸ hd
    rw [hpreorder.isAncestor_concat_of_lt hparents, covers_concat_of_lt (h.start_lt hold)]
    rcases Nat.lt_or_eq_of_le ha with ha | rfl
    · exact h.covers_iff ha hold
    · -- The new element starts too late, and nothing is nested in it.
      refine iff_of_false ?_ ?_
      · rintro ⟨other, hother, _⟩
        exact absurd (List.getElem?_eq_some_iff.1 hother).1 (Nat.lt_irrefl _)
      · rintro (rfl | hanc)
        · exact absurd hd (Nat.lt_irrefl _)
        · exact absurd (hpreorder.ancestor_lt hanc) (Nat.lt_asymm hd)
  · have hhead : ∀ p ∈ opened.head?, p < parents.length := fun p hp =>
      hlt p (List.mem_of_head? hp)
    rcases Nat.lt_or_eq_of_le ha with ha | rfl
    · rw [covers_concat_iff ha, h.covers_iff_mem ha (Nat.le_succ _),
        or_iff_right (Nat.ne_of_lt ha), h.length, hpreorder.isAncestor_concat_length hhead]
      refine ⟨hnested a, ?_⟩
      rintro ⟨p, hp, rfl | hanc⟩
      · exact List.mem_of_head? hp
      · exact h.ancestor_open hanc (List.mem_of_head? hp)
    · exact iff_of_true ⟨_, List.getElem?_concat_length, Nat.le_refl _, .inl List.mem_cons_self⟩
        (.inl rfl)

/-- A new element in the innermost of the open elements. -/
theorem opens (h : Laminar parents intervals opened count) (hpreorder : InPreorder parents)
    (hnested : ∀ id ∈ opened, ∃ p ∈ opened.head?, id = p ∨ IsAncestor parents id p)
    (hlt : ∀ id ∈ opened, id < parents.length) :
    Laminar (parents ++ [opened.head?]) (intervals ++ [(count, count + 1)])
      (intervals.length :: opened) (count + 1) := by
  have hopen {id : Nat} (hid : id < intervals.length) :
      id ∈ intervals.length :: opened ↔ id ∈ opened :=
    List.mem_cons.trans (or_iff_right (Nat.ne_of_lt hid))
  refine ⟨?_, ?_, ?_, ?_, ?_, fun {a d interval} ha => ?_⟩
  · rw [List.length_append, List.length_append, h.length]
    rfl
  · intro id interval hid
    rcases concat_cases hid with ⟨_, hold⟩ | ⟨_, rfl⟩
    · exact Nat.lt_succ_of_lt (h.start_lt hold)
    · exact Nat.lt_succ_self _
  · intro id interval hid hclosed
    rcases concat_cases hid with ⟨hid, hold⟩ | ⟨rfl, _⟩
    · exact (h.bounds hold (mt (hopen hid).2 hclosed)).imp_right Nat.lt_succ_of_lt
    · exact absurd List.mem_cons_self hclosed
  · intro p c hp hc
    rcases List.mem_cons.1 hc with rfl | hc
    · rw [h.length] at hp
      exact List.mem_cons_of_mem _ (List.mem_of_head? (isParent_concat_length.1 hp))
    · have hp := (isParent_concat_of_lt (hlt c hc)).1 hp
      exact List.mem_cons_of_mem _ (h.parent_open hp hc)
  · intro p c outer inner hp houter hinner hclosed
    rcases concat_cases hinner with ⟨hc, hinner⟩ | ⟨rfl, _⟩
    · have hp := (isParent_concat_of_lt (h.length ▸ hc)).1 hp
      have hplt := Nat.lt_trans (hpreorder.parent_lt hp) hc
      rcases concat_cases houter with ⟨_, houter⟩ | ⟨rfl, _⟩
      · exact h.stop_le hp houter hinner (mt (hopen hplt).2 hclosed)
      · exact absurd hplt (Nat.lt_irrefl _)
    · rw [h.length] at hp
      have hopened := List.mem_of_head? (isParent_concat_length.1 hp)
      exact absurd (List.mem_cons_of_mem _ hopened) hclosed
  · rw [List.length_append, List.length_singleton] at ha
    exact h.covers_opens_iff hpreorder hnested hlt (Nat.le_of_lt_succ ha)

/-- The innermost of the open elements end at the next token. -/
theorem closes {ended remaining : List Nat}
    (h : Laminar parents intervals (ended ++ remaining) count) (hpreorder : InPreorder parents)
    (hnested : ∀ inner ∈ ended, ∀ outer ∈ remaining, IsAncestor parents outer inner) :
    Laminar parents (endedAt ended count intervals) remaining (count + 1) := by
  have hparent_open {p c : Nat} (hp : IsParent parents p c) (hc : c ∈ remaining) :
      p ∈ remaining := by
    refine (List.mem_append.1 (h.parent_open hp (List.mem_append_right _ hc))).resolve_left ?_
    intro hended
    exact Nat.lt_asymm (hpreorder.parent_lt hp) (hpreorder.ancestor_lt (hnested p hended c hc))
  refine ⟨?_, ?_, ?_, hparent_open, ?_, ?_⟩
  · rw [endedAt, List.length_mapIdx, h.length]
  · intro id interval hid
    obtain ⟨old, hold, rfl⟩ := endedAt_cases hid
    have hstart := h.start_lt hold
    exact Nat.lt_succ_of_lt hstart
  · intro id interval hid hremaining
    obtain ⟨old, hold, rfl⟩ := endedAt_cases hid
    have hstart := h.start_lt hold
    by_cases hended : id ∈ ended
    · rw [if_pos hended]
      exact ⟨hstart, Nat.lt_succ_self _⟩
    · rw [if_neg hended]
      have hclosed : id ∉ ended ++ remaining := mt List.mem_append.1 (by tauto)
      exact (h.bounds hold hclosed).imp_right Nat.lt_succ_of_lt
  · intro p c outer inner hp houter hinner hremaining
    obtain ⟨oldOuter, hOuter, rfl⟩ := endedAt_cases houter
    obtain ⟨oldInner, hInner, rfl⟩ := endedAt_cases hinner
    have hc : c ∉ remaining := mt (hparent_open hp) hremaining
    by_cases hcended : c ∈ ended
    · -- The outer element was open as well, so both end here.
      have hpopen := h.parent_open hp (List.mem_append_left _ hcended)
      have hpended := (List.mem_append.1 hpopen).resolve_right hremaining
      rw [if_pos hcended, if_pos hpended]
    · have hcclosed : c ∉ ended ++ remaining := mt List.mem_append.1 (by tauto)
      rw [if_neg hcended]
      by_cases hpended : p ∈ ended
      · rw [if_pos hpended]
        exact Nat.le_of_lt (h.bounds hInner hcclosed).2
      · have hpclosed : p ∉ ended ++ remaining := mt List.mem_append.1 (by tauto)
        rw [if_neg hpended]
        exact h.stop_le hp hOuter hInner hpclosed
  · intro a d interval ha hd
    obtain ⟨old, hold, rfl⟩ := endedAt_cases hd
    rw [endedAt, List.length_mapIdx] at ha
    rw [covers_endedAt_iff (h.start_lt hold)]
    exact h.covers_iff ha hold

end Laminar

/-! ### Building -/

/-- The first tokens and the ends of a list of elements. -/
def intervalsOf (nodes : Array Element) : List (Nat × Nat) :=
  nodes.toList.map fun element => (element.token, element.endToken)

theorem getElem?_intervalsOf (nodes : Array Element) (id : Nat) :
    (intervalsOf nodes)[id]? =
      nodes[id]?.map fun element => (element.token, element.endToken) := by
  rw [intervalsOf, List.getElem?_map, Array.getElem?_toList]

namespace ElementTree.Builder

/-- The numbers of the open elements, innermost first. -/
def openIds (b : Builder) : List Nat :=
  b.stack.map Prod.fst

theorem innermost_eq (b : Builder) : b.innermost = b.openIds.head? := by
  rw [innermost, openIds, List.head?_map]

/-- The element of the line, if there is one, is the innermost open element. -/
def Attached (b : Builder) : Prop :=
  ∀ id ∈ b.current, b.innermost = some id

theorem Attached.currentOwner_eq {b : Builder} (h : b.Attached) : b.currentOwner = b.innermost := by
  rw [currentOwner]
  cases hcurrent : b.current with
  | none => exact Option.none_or
  | some id => exact (h id hcurrent).symm

theorem Attached.parent_eq {b : Builder} (h : b.Attached) : b.parent = b.openIds.head? := by
  rw [parent, h.currentOwner_eq, ite_self, innermost_eq]

theorem intervalsOf_openElement (b : Builder) (i : Nat) (name : String) (written : ElementKind)
    (tagToken : Option Nat) :
    intervalsOf (b.openElement i name written tagToken).nodes =
      intervalsOf b.nodes ++ [(i, i + 1)] :=
  map_openElement (fun _ _ => rfl) (fun _ _ _ => rfl) ..

theorem Closes.intervalsOf_eq {b c : Builder} {token : Nat} {closed : List (Nat × Nat)}
    (h : Closes b token closed c) :
    intervalsOf c.nodes = endedAt (closed.map Prod.fst) token (intervalsOf b.nodes) := by
  refine List.ext_getElem? fun id => ?_
  rw [getElem?_intervalsOf, h.nodes, endedAt, List.getElem?_mapIdx, getElem?_intervalsOf,
    Option.map_map, Option.map_map]
  rfl

theorem Closes.openIds_eq {b c : Builder} {token : Nat} {closed : List (Nat × Nat)}
    (h : Closes b token closed c) : b.openIds = closed.map Prod.fst ++ c.openIds := by
  rw [openIds, h.stack, List.map_append]
  rfl

namespace Ordered

variable {b c : Builder}

theorem openIds_lt (h : b.Ordered) : ∀ id ∈ b.openIds, id < (parentsOf b.nodes).length := by
  intro id hid
  obtain ⟨entry, hentry, rfl⟩ := List.mem_map.1 hid
  exact h.preorder.lt_length_of_aroundLast (h.around entry hentry)

theorem pairwise_openIds (h : b.Ordered) :
    b.openIds.Pairwise fun inner outer => IsAncestor (parentsOf b.nodes) outer inner :=
  List.pairwise_map.2 h.nested

/-- The innermost open element is the greatest one. -/
theorem innermost_eq_some_iff (h : b.Ordered) (id : Nat) :
    b.innermost = some id ↔ IsGreatest {id | id ∈ b.openIds} id := by
  have hsorted : b.openIds.reverse.Pairwise (· < ·) :=
    List.pairwise_reverse.2 (h.pairwise_openIds.imp h.preorder.ancestor_lt)
  have hgreatest := getLast?_eq_some_iff_isGreatest hsorted (x := id)
  rw [List.getLast?_reverse] at hgreatest
  rw [innermost_eq, hgreatest]
  simp only [List.mem_reverse]

/-- Each open element is the innermost one or around it. -/
theorem exists_head (h : b.Ordered) : ∀ id ∈ b.openIds,
    ∃ p ∈ b.openIds.head?, id = p ∨ IsAncestor (parentsOf b.nodes) id p := by
  intro id hid
  have hsorted := h.pairwise_openIds
  cases hopen : b.openIds with
  | nil =>
    rw [hopen] at hid
    exact absurd hid List.not_mem_nil
  | cons inner outer =>
    rw [hopen] at hid hsorted
    exact ⟨inner, rfl, (List.mem_cons.1 hid).imp_right ((List.pairwise_cons.1 hsorted).1 id)⟩

end Ordered

/-- The elements that have been found, and the owners of the tokens: of all elements
    that have a token, the greatest. -/
structure Spanned (b : Builder) : Prop where
  /-- The order of the elements. -/
  ordered : b.Ordered
  /-- The intervals. -/
  laminar : Laminar (parentsOf b.nodes) (intervalsOf b.nodes) b.openIds b.owners.size
  /-- The owners. -/
  owner {i : Nat} (hi : i < b.owners.size) (id : Nat) : b.owners[i]?.join = some id ↔
    IsGreatest {id | Covers (intervalsOf b.nodes) b.openIds id i} id

namespace Spanned

variable {b c : Builder}

theorem start : Builder.start.Spanned where
  ordered := Ordered.start
  laminar := Laminar.nil
  owner h := nomatch h

/-- The owners after a token that goes to the innermost of the open elements. -/
theorem next (h : b.Spanned) (hordered : c.Ordered)
    (hlaminar : Laminar (parentsOf c.nodes) (intervalsOf c.nodes) c.openIds (b.owners.size + 1))
    (howners : c.owners = b.owners.push c.innermost)
    (hcovers : ∀ id i, i < b.owners.size → (Covers (intervalsOf c.nodes) c.openIds id i ↔
      Covers (intervalsOf b.nodes) b.openIds id i)) : c.Spanned where
  ordered := hordered
  laminar := by rwa [howners, Array.size_push]
  owner {i} hi id := by
    rw [howners, Array.size_push] at hi
    rw [howners, Array.getElem?_push]
    rcases Nat.lt_or_eq_of_le (Nat.le_of_lt_succ hi) with hlt | rfl
    · rw [if_neg (Nat.ne_of_lt hlt), h.owner hlt]
      simp only [hcovers _ i hlt]
    · have hset : {id | Covers (intervalsOf c.nodes) c.openIds id b.owners.size} =
          {id | id ∈ c.openIds} := by
        ext id
        constructor
        · intro hid
          have hlt : id < (intervalsOf c.nodes).length := by
            obtain ⟨interval, hinterval, _⟩ := hid
            exact (List.getElem?_eq_some_iff.1 hinterval).1
          exact (hlaminar.covers_iff_mem hlt (Nat.le_refl _)).1 hid
        · intro hid
          have hlt := hordered.openIds_lt id hid
          rw [← hlaminar.length] at hlt
          exact (hlaminar.covers_iff_mem hlt (Nat.le_refl _)).2 hid
      rw [if_pos rfl, Option.join_some, hset]
      exact hordered.innermost_eq_some_iff id

/-- A token that opens and closes nothing. -/
theorem same (h : b.Spanned) (hordered : c.Ordered)
    (hparents : parentsOf c.nodes = parentsOf b.nodes)
    (hintervals : intervalsOf c.nodes = intervalsOf b.nodes) (hstack : c.stack = b.stack)
    (howners : c.owners = b.owners.push b.innermost) : c.Spanned := by
  have hopen : c.openIds = b.openIds := congrArg (List.map Prod.fst) hstack
  refine h.next hordered ?_ ?_ fun id i _ => ?_
  · rw [hparents, hintervals, hopen]
    exact h.laminar.succ
  · rw [howners, innermost_eq, innermost_eq, hopen]
  · rw [hintervals, hopen]

/-- The innermost of the open elements end at the next token. -/
theorem laminar_closes (h : b.Spanned) {closed : List (Nat × Nat)}
    (hcloses : Closes b b.owners.size closed c) :
    Laminar (parentsOf c.nodes) (intervalsOf c.nodes) c.openIds (b.owners.size + 1) := by
  have hlaminar := h.laminar
  have hnested := h.ordered.pairwise_openIds
  rw [hcloses.openIds_eq] at hlaminar hnested
  rw [hcloses.parentsOf_eq, hcloses.intervalsOf_eq]
  exact hlaminar.closes h.ordered.preorder (List.pairwise_append.1 hnested).2.2

/-- A token in front of the end of the template keeps intervals and owners right. -/
theorem change (h : b.Spanned) (hattached : b.Attached) {kind : TokenKind}
    (hchange : Change b b.owners.size kind c) :
    c.Spanned ∧ (kind ≠ .eos → c.Attached) := by
  have hordered := h.ordered.change hchange
  cases hchange with
  | opens name written tagToken =>
    have hparents := parentsOf_openElement b b.owners.size name written tagToken
    have hintervals := intervalsOf_openElement b b.owners.size name written tagToken
    have hopen : (b.openElement b.owners.size name written tagToken).openIds =
        (intervalsOf b.nodes).length :: b.openIds := by
      rw [h.laminar.length, length_parentsOf]
      rfl
    refine ⟨h.next hordered ?_ rfl fun id i hi => ?_, fun _ id hid => hid⟩
    · rw [hparents, hintervals, hopen, hattached.parent_eq]
      exact h.laminar.opens h.ordered.preorder h.ordered.exists_head h.ordered.openIds_lt
    · rw [hintervals, hopen]
      exact covers_concat_of_lt hi
  | adds hcurrent =>
    have howner := hattached _ hcurrent
    refine ⟨h.same hordered (map_modify _ _ fun _ => rfl) (map_modify _ _ fun _ => rfl) rfl ?_,
      fun _ => hattached⟩
    rw [howner]
    rfl
  | closes hcloses howners hcurrent =>
    refine ⟨h.next hordered (h.laminar_closes hcloses) howners fun id i hi => ?_, fun hkind => ?_⟩
    · rw [hcloses.intervalsOf_eq, hcloses.openIds_eq]
      exact covers_endedAt_iff hi
    · have hnone := hcurrent.resolve_right fun heos => hkind heos.1
      intro id hid
      rw [hnone] at hid
      cases hid
  | stays hnodes hstack hcurrent howners =>
    rw [hattached.currentOwner_eq] at howners
    refine ⟨h.same hordered (congrArg _ hnodes) (congrArg _ hnodes) hstack howners, fun _ => ?_⟩
    rw [Attached, hcurrent, innermost, hstack]
    exact hattached

/-- All tokens in front of the end of the template keep intervals and owners right. -/
theorem steps (h : b.Spanned) (hattached : b.Attached) {kinds : List TokenKind}
    (heos : .eos ∉ kinds) :
    (b.steps b.owners.size kinds).Spanned ∧ (b.steps b.owners.size kinds).Attached := by
  induction kinds generalizing b with
  | nil => exact ⟨h, hattached⟩
  | cons kind kinds ih =>
    obtain ⟨hkind, hkinds⟩ := not_or.1 (mt List.mem_cons.2 heos)
    obtain ⟨hspanned, hnext⟩ := h.change hattached (change_step b b.owners.size kind)
    have hsteps := ih hspanned (hnext (Ne.symm hkind)) hkinds
    rwa [size_owners_step] at hsteps

/-- The intervals and owners when all open elements end. -/
theorem finish (h : b.Spanned) {closed : List (Nat × Nat)}
    (hcloses : Closes b b.owners.size closed c) (hstack : c.stack = []) :
    Laminar (parentsOf c.nodes) (intervalsOf c.nodes) [] (b.owners.size + 1) ∧
      ∀ i id, b.owners[i]?.join = some id ↔
        IsGreatest {id | Covers (intervalsOf c.nodes) [] id i} id := by
  have hlaminar := h.laminar_closes hcloses
  have hopen : c.openIds = [] := by rw [openIds, hstack, List.map_nil]
  rw [hopen] at hlaminar
  refine ⟨hlaminar, fun i id => ?_⟩
  rcases Nat.lt_or_ge i b.owners.size with hi | hi
  · have hcovers (id : Nat) : Covers (intervalsOf c.nodes) [] id i ↔
        Covers (intervalsOf b.nodes) b.openIds id i := by
      rw [hcloses.intervalsOf_eq, hcloses.openIds_eq, hopen]
      exact covers_endedAt_iff hi
    simp only [h.owner hi, hcovers]
  · -- Behind the last token there are neither owners nor elements.
    rw [Array.getElem?_eq_none hi]
    refine iff_of_false nofun ?_
    rintro ⟨⟨interval, hinterval, _, hmem | hlt⟩, _⟩
    · exact absurd hmem List.not_mem_nil
    · have := (hlaminar.bounds hinterval List.not_mem_nil).2
      omega

end Spanned

/-- The intervals and owners after a list of tokens, of which the last one may be the
    end of the template. -/
theorem spanned_steps {kinds : List TokenKind} (heos : .eos ∉ kinds.dropLast) :
    (start.steps 0 kinds).Spanned := by
  rcases List.eq_nil_or_concat kinds with rfl | ⟨front, last, rfl⟩
  · exact Spanned.start
  · rw [List.concat_eq_append] at heos ⊢
    rw [List.dropLast_concat] at heos
    obtain ⟨hspanned, hattached⟩ := Spanned.start.steps nofun heos
    have hsize : (start.steps 0 front).owners.size = 0 + front.length :=
      (ordered_steps front).2.trans (Nat.zero_add _).symm
    rw [steps_append, ← hsize]
    exact (hspanned.change hattached (change_step ..)).1

end ElementTree.Builder

/-! ### Trees -/

namespace ElementTree

/-- An element has a token: the token is in its interval, to which the end does not
    belong. -/
def Spans (tree : ElementTree) (id i : Nat) : Prop :=
  ∃ element, tree.nodes[id]? = some element ∧ element.token ≤ i ∧ i < element.endToken

theorem spans_iff_covers {tree : ElementTree} {id i : Nat} :
    tree.Spans id i ↔ Covers (intervalsOf tree.nodes) [] id i := by
  rw [Spans, Covers, getElem?_intervalsOf]
  simp only [Option.map_eq_some_iff, exists_exists_and_eq_and, List.not_mem_nil, false_or]

/-- The intervals of the elements of `count` tokens are nested like the elements, and
    the owner of a token is the innermost element that has it. -/
structure Nested (tree : ElementTree) (count : Nat) : Prop where
  /-- No interval is empty, and all of them are within the tokens. -/
  bounds {id : Nat} {element : Element} (h : tree.nodes[id]? = some element) :
    element.token < element.endToken ∧ element.endToken ≤ count
  /-- The interval of a child is inside that of its parent. -/
  child {id p : Nat} {element : Element} (h : tree.nodes[id]? = some element)
    (hparent : element.parent = some p) :
    ∃ outer, tree.nodes[p]? = some outer ∧ outer.token ≤ element.token ∧
      element.endToken ≤ outer.endToken
  /-- The intervals of siblings are disjoint and in order. -/
  siblings {a b : Nat} {x y : Element} (ha : tree.nodes[a]? = some x)
    (hb : tree.nodes[b]? = some y) (hparent : x.parent = y.parent) (hab : a < b) :
    x.endToken ≤ y.token
  /-- The elements nested in one are those behind it up to some number. -/
  descendants {id : Nat} {element : Element} (h : tree.nodes[id]? = some element) :
    ∃ count, tree.descendants id = List.range' (id + 1) count
  /-- The elements nested in one are those that start in its interval. -/
  mem_descendants {id : Nat} {element : Element} (h : tree.nodes[id]? = some element) (d : Nat) :
    d ∈ tree.descendants id ↔ d ≠ id ∧ ∃ inner, tree.nodes[d]? = some inner ∧
      element.token ≤ inner.token ∧ inner.token < element.endToken
  /-- The owner of a token is the greatest of the elements that have it. -/
  owner (i id : Nat) : tree.owner? i = some id ↔ IsGreatest {id | tree.Spans id i} id
  /-- A token without an owner is one that no element has. -/
  owner_none (i : Nat) : tree.owner? i = none ↔ ∀ id, ¬ tree.Spans id i

/-- The elements that have a token are finitely many, so there is a greatest one. -/
theorem exists_isGreatest_spans {tree : ElementTree} {id i : Nat} (h : tree.Spans id i) :
    ∃ id, IsGreatest {id | tree.Spans id i} id := by
  have hbound : BddAbove {id | tree.Spans id i} := by
    refine ⟨tree.nodes.size, fun other hother => ?_⟩
    obtain ⟨element, helement, _⟩ := hother
    exact Nat.le_of_lt (Array.getElem?_eq_some_iff.1 helement).1
  exact ⟨_, Nat.sSup_mem ⟨id, h⟩ hbound, fun _ => le_csSup hbound⟩

/-- Where all elements are closed, the intervals tell how they are nested. -/
theorem nested_of_laminar {tree : ElementTree} {count : Nat}
    (hlinked : Linked (linksOf tree.nodes)) (hpreorder : InPreorder (parentsOf tree.nodes))
    (hincreasing : tree.Increasing)
    (hlaminar : Laminar (parentsOf tree.nodes) (intervalsOf tree.nodes) [] (count + 1))
    (howner : ∀ i id, tree.owner? i = some id ↔ IsGreatest {id | tree.Spans id i} id) :
    tree.Nested count := by
  have hconsistent := consistent_of_linked hlinked hpreorder hincreasing
  have hinterval {id : Nat} {element : Element} (h : tree.nodes[id]? = some element) :
      (intervalsOf tree.nodes)[id]? = some (element.token, element.endToken) := by
    rw [getElem?_intervalsOf, h]
    rfl
  -- An element starts inside of another just when it is that one or below it.
  have hspans {a d : Nat} {outer inner : Element} (ha : tree.nodes[a]? = some outer)
      (hd : tree.nodes[d]? = some inner) :
      outer.token ≤ inner.token ∧ inner.token < outer.endToken ↔
        a = d ∨ IsAncestor (parentsOf tree.nodes) a d := by
    have hlt := (List.getElem?_eq_some_iff.1 (hinterval ha)).1
    rw [← hlaminar.covers_iff hlt (hinterval hd), ← spans_iff_covers]
    constructor
    · exact fun h => ⟨outer, ha, h⟩
    · rintro ⟨element, helement, h⟩
      cases ha.symm.trans helement
      exact h
  refine ⟨?_, ?_, ?_, ?_, ?_, howner, ?_⟩
  · intro id element h
    have hbounds := hlaminar.bounds (hinterval h) List.not_mem_nil
    exact hbounds.imp_right Nat.le_of_lt_succ
  · intro id p element h hparent
    obtain ⟨_, outer, houter, _⟩ := hconsistent.child h hparent
    have hp : IsParent (parentsOf tree.nodes) p id := isParent_iff.2 ⟨element, h, hparent⟩
    refine ⟨outer, houter, ((hspans houter h).2 (.inr (.of_isParent hp))).1, ?_⟩
    exact hlaminar.stop_le hp (hinterval houter) (hinterval h) List.not_mem_nil
  · intro a b x y ha hb hparent hab
    by_contra hlt
    have hstart := Nat.le_of_lt (hconsistent.increasing ha hb hab)
    have hanc := ((hspans ha hb).1 ⟨hstart, Nat.not_le.1 hlt⟩).resolve_left (Nat.ne_of_lt hab)
    exact hpreorder.not_isAncestor_of_areSiblings (areSiblings_of_parent_eq ha hb hparent) hanc
  · intro id element h
    obtain ⟨count, _, hdescendants, _⟩ :=
      walksPreorder_descendants hlinked hpreorder (Array.getElem?_eq_some_iff.1 h).1
    exact ⟨count, hdescendants⟩
  · intro id element h d
    rw [hconsistent.mem_descendants h]
    constructor
    · intro hanc
      have hlt := hanc.lt_length
      rw [length_parentsOf] at hlt
      have hd := Array.getElem?_eq_getElem hlt
      exact ⟨Nat.ne_of_gt (hpreorder.ancestor_lt hanc), _, hd, (hspans h hd).2 (.inr hanc)⟩
    · rintro ⟨hne, inner, hd, hstart⟩
      exact ((hspans h hd).1 hstart).resolve_left (Ne.symm hne)
  · intro i
    constructor
    · intro hnone id hid
      obtain ⟨greatest, hgreatest⟩ := exists_isGreatest_spans hid
      rw [← howner, hnone] at hgreatest
      cases hgreatest
    · intro hnone
      cases hsome : tree.owner? i with
      | none => rfl
      | some id => exact absurd ((howner i id).1 hsome).1 (hnone id)

/-- Where the end of the template stands at most once and last, the intervals of the
    elements are nested. -/
theorem nested_ofKinds {kinds : List TokenKind} (h : .eos ∉ kinds.dropLast) :
    (ofKinds kinds).Nested kinds.length := by
  have hspanned := Builder.spanned_steps h
  have hordered := ordered_run kinds
  obtain ⟨closed, hcloses⟩ := (Builder.start.steps 0 kinds).exists_closes 0 (0 + kinds.length)
  have hsize : (Builder.start.steps 0 kinds).owners.size = 0 + kinds.length :=
    (Builder.ordered_steps kinds).2.trans (Nat.zero_add _).symm
  have hrun : Builder.start.run 0 kinds =
      (Builder.start.steps 0 kinds).closeTo 0 (0 + kinds.length) := Builder.run_eq_closeTo ..
  have howners : (Builder.start.run 0 kinds).owners = (Builder.start.steps 0 kinds).owners := by
    rw [hrun]
    rfl
  have hstack : (Builder.start.run 0 kinds).stack = [] := by
    rw [hrun]
    exact Builder.stack_closeTo_zero ..
  rw [← hrun, ← hsize] at hcloses
  obtain ⟨hlaminar, howner⟩ := hspanned.finish hcloses hstack
  rw [hsize, Nat.zero_add] at hlaminar
  refine nested_of_laminar (linked_ofKinds kinds) hordered.preorder hordered.increasing
    hlaminar fun i id => ?_
  simp only [spans_iff_covers]
  rw [← howners] at howner
  exact howner i id

/-- The elements of every list of tokens in which the end of the template stands at
    most once, as the last token, are nested by their intervals. The tokens of every
    template that can be read are such a list. -/
theorem nested_build :
    (∀ tokens : List PlacedToken, .eos ∉ (tokens.map PlacedToken.kind).dropLast →
      (build tokens).Nested tokens.length) ∧
    ∀ (template : String) (tokens : List Token), tokenize template = .ok tokens →
      .eos ∉ (tokens.map Token.kind).dropLast := by
  refine ⟨fun tokens h => ?_, fun template tokens => eos_not_mem_dropLast⟩
  rw [build, ← List.length_map (f := PlacedToken.kind)]
  exact nested_ofKinds h

/-- The elements of a template, wherever it stands in its document. -/
theorem nested_build_note :
    .eos ∉ ((placeTokens noteTokens noteTemplate.toList 10 1).map PlacedToken.kind).dropLast ∧
      (build (placeTokens noteTokens noteTemplate.toList 10 1)).Nested
        (placeTokens noteTokens noteTemplate.toList 10 1).length ∧
      .eos ∉ (noteTokens.map Token.kind).dropLast := by
  have heos : .eos ∉
      ((placeTokens noteTokens noteTemplate.toList 10 1).map PlacedToken.kind).dropLast := by
    rw [map_kind_placeTokens]
    decide
  exact ⟨heos, nested_build.1 _ heos, nested_build.2 _ _ tokenize_note⟩

end ElementTree

end PugLint
