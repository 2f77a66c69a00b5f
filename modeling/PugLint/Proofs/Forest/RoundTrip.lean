import PugLint.Proofs.Forest.Building
import PugLint.Proofs.Forest.Lines
import PugLint.Proofs.Placement

/-!
# Forests read back

From a tree of elements and its tokens, a forest is read along the links: the roots,
the children of each element, and the head of each. The elements of a template that
writes a forest are read back as that forest.

* `ElementTree.toForest`: the forest of a tree of elements;
* `Forest.Within`: a forest as part of a list of numbered heads;
* `ElementTree.toForest_eq`: elements that are seen as those of a forest are read
  back as it;
* `toForest_build_written`: a template that writes a forest is read as that forest.
-/

namespace PugLint

/-! ### Reading forests -/

/-- The class or the id of a token. -/
def Literal.ofKind? : TokenKind → Option Literal
  | .classLiteral name => some (.ofClass name)
  | .idLiteral name => some (.ofId name)
  | _ => none

/-- The kinds of the tokens with a given owner. -/
def kindsOf (id : Nat) (owned : List (Option Nat × TokenKind)) : List TokenKind :=
  owned.filterMap fun (owner, kind) => if owner = some id then some kind else none

namespace ElementTree

/-- The kinds of the tokens that an element owns, among tokens of given kinds, apart
    from those for the layout of the lines. -/
def ownedKinds (tree : ElementTree) (kinds : List TokenKind) (id : Nat) : List TokenKind :=
  kindsOf id (contents kinds tree.owners)

/-- The head of an element: its name, the classes, ids and text among the tokens that
    it owns, and its attributes. -/
def headOf (tree : ElementTree) (kinds : List TokenKind) (id : Nat) (element : Element) : Head :=
  { name := element.name
    literals := (tree.ownedKinds kinds id).filterMap Literal.ofKind?
    attributes := element.attributes.filterMap fun i => kinds[i]?.bind TokenKind.attribute?
    text := ((tree.ownedKinds kinds id).filterMap TokenKind.textValue?).head? }

/-- The forest of the listed elements and of those nested in them, at most as deep as
    `fuel` allows. -/
def forestFrom (tree : ElementTree) (kinds : List TokenKind) : Nat → List Nat → Forest
  | 0, _ => .nil
  | _, [] => .nil
  | fuel + 1, id :: ids =>
    match tree.nodes[id]? with
    | some element =>
      .cons (tree.headOf kinds id element) (tree.forestFrom kinds fuel (tree.children id))
        (tree.forestFrom kinds fuel ids)
    | none => .nil

/-- The forest of a tree of elements, from its roots along the links. -/
def toForest (tree : ElementTree) (kinds : List TokenKind) : Forest :=
  tree.forestFrom kinds tree.nodes.size tree.roots

end ElementTree

/-! ### Numbers of elements -/

namespace Forest

/-- The numbers of the outermost elements, where the first element has number `n`. -/
def numbers (n : Nat) : Forest → List Nat
  | nil => []
  | cons _ children rest => n :: rest.numbers (n + 1 + children.size)

/-- The elements of a forest are nested in the given parent or in one another. -/
theorem parent_of_mem_entries {forest : Forest} {parent : Option Nat} {n : Nat}
    {entry : Option Nat × Head} (h : entry ∈ forest.entries parent n) :
    entry.1 = parent ∨ ∃ p, entry.1 = some p ∧ n ≤ p ∧ p < n + forest.size := by
  induction forest generalizing parent n with
  | nil => cases h
  | cons head children rest ihchildren ihrest =>
    rw [entries, List.mem_cons, List.mem_append] at h
    rw [size]
    rcases h with rfl | h | h
    · exact .inl rfl
    · rcases ihchildren h with h | ⟨p, hp, hge, hlt⟩
      · exact .inr ⟨n, h, Nat.le_refl _, by omega⟩
      · exact .inr ⟨p, hp, by omega, by omega⟩
    · rcases ihrest h with h | ⟨p, hp, hge, hlt⟩
      · exact .inl h
      · exact .inr ⟨p, hp, by omega, by omega⟩

/-- The children of the parent of a forest are its outermost elements. -/
theorem kidsFrom_entries {parent : Option Nat} {n : Nat} (h : ∀ p ∈ parent, p < n)
    (forest : Forest) :
    kidsFrom parent n ((forest.entries parent n).map Prod.fst) = forest.numbers n := by
  induction forest generalizing n with
  | nil => rfl
  | cons head children rest ihchildren ihrest =>
    have hchildren : parent ∉ (children.entries (some n) (n + 1)).map Prod.fst := by
      intro hmem
      obtain ⟨entry, hentry, rfl⟩ := List.mem_map.1 hmem
      rcases parent_of_mem_entries hentry with hp | ⟨p, hp, hge, _⟩
      · exact Nat.lt_irrefl _ (h n hp)
      · have := h p hp
        omega
    rw [entries, List.map_cons, kidsFrom, if_pos rfl, List.map_append, kidsFrom_append,
      kidsFrom_of_not_mem _ hchildren, List.nil_append, List.length_map, length_entries,
      ihrest fun p hp => Nat.lt_of_lt_of_le (h p hp) (by omega), numbers]

end Forest

/-- A forest with a given parent is part of a list of entries: parents are numbers of
    entries in front, and no entry behind the forest is nested in it. -/
structure Forest.Within (forest : Forest) (entries : List (Option Nat × Head))
    (parent : Option Nat) (before after : List (Option Nat × Head)) : Prop where
  /-- The entries. -/
  eq_append : entries = before ++ forest.entries parent before.length ++ after
  /-- The parent. -/
  parent_lt : ∀ p ∈ parent, p < before.length
  /-- The entries in front. -/
  before_lt : ∀ entry ∈ before, ∀ p ∈ entry.1, p < before.length
  /-- The entries behind. -/
  after_outside : ∀ entry ∈ after, ∀ p ∈ entry.1,
    p < before.length ∨ before.length + forest.size ≤ p

namespace Forest.Within

section Parts

variable {entries before after : List (Option Nat × Head)} {parent : Option Nat}
  {head : Head} {children rest : Forest}

theorem getElem?_length (h : (cons head children rest).Within entries parent before after) :
    entries[before.length]? = some (parent, head) := by
  rw [h.eq_append, List.append_assoc, List.getElem?_append_right (Nat.le_refl _), Nat.sub_self,
    Forest.entries]
  rfl

/-- The elements behind the first one and those nested in it. -/
theorem behind_outside (h : (cons head children rest).Within entries parent before after) :
    ∀ entry ∈ rest.entries parent (before.length + 1 + children.size) ++ after,
      ∀ p ∈ entry.1, p < before.length ∨ before.length + 1 + children.size ≤ p := by
  intro entry hentry p hp
  rcases List.mem_append.1 hentry with hrest | hafter
  · rcases parent_of_mem_entries hrest with hparent | ⟨q, hq, hge, _⟩
    · exact .inl (h.parent_lt p (hparent ▸ hp))
    · cases hp.symm.trans hq
      exact .inr hge
  · rcases h.after_outside entry hafter p hp with hlt | hge
    · exact .inl hlt
    · rw [Forest.size] at hge
      exact .inr (by omega)

/-- The first element and those in front of it. -/
theorem upto_lt (h : (cons head children rest).Within entries parent before after) :
    ∀ entry ∈ before ++ [(parent, head)], ∀ p ∈ entry.1, p < before.length := by
  intro entry hentry p hp
  rcases List.mem_append.1 hentry with hentry | hentry
  · exact h.before_lt entry hentry p hp
  · cases List.mem_singleton.1 hentry
    exact h.parent_lt p hp

/-- The elements nested in the first one are part of the entries. -/
theorem below (h : (cons head children rest).Within entries parent before after) :
    children.Within entries (some before.length) (before ++ [(parent, head)])
      (rest.entries parent (before.length + 1 + children.size) ++ after) where
  eq_append := by
    rw [h.eq_append, List.length_append, Forest.entries]
    simp
  parent_lt p hp := by
    cases hp
    simp
  before_lt entry hentry p hp := by
    rw [List.length_append]
    exact Nat.lt_succ_of_lt (h.upto_lt entry hentry p hp)
  after_outside entry hentry p hp := by
    rw [List.length_append]
    exact (h.behind_outside entry hentry p hp).imp_left Nat.lt_succ_of_lt

/-- The elements behind the first one and those nested in it are part of the
    entries. -/
theorem behind (h : (cons head children rest).Within entries parent before after) :
    rest.Within entries parent
      (before ++ [(parent, head)] ++ children.entries (some before.length) (before.length + 1))
      after := by
  have hlength : (before ++ [(parent, head)] ++
      children.entries (some before.length) (before.length + 1)).length =
        before.length + 1 + children.size := by
    rw [List.length_append, List.length_append, Forest.length_entries, List.length_singleton]
  refine ⟨?_, fun p hp => ?_, fun entry hentry p hp => ?_, fun entry hentry p hp => ?_⟩
  · rw [hlength, h.eq_append, Forest.entries]
    simp
  · rw [hlength]
    have := h.parent_lt p hp
    omega
  · rw [hlength]
    rcases List.mem_append.1 hentry with hentry | hentry
    · have := h.upto_lt entry hentry p hp
      omega
    · rcases parent_of_mem_entries hentry with hparent | ⟨q, hq, _, hlt⟩
      · cases hp.symm.trans hparent
        omega
      · cases hp.symm.trans hq
        exact hlt
  · rw [hlength]
    rcases h.after_outside entry hentry p hp with hlt | hge
    · exact .inl (by omega)
    · rw [Forest.size] at hge
      exact .inr (by omega)

/-- The children of the first element are the outermost of those nested in it. -/
theorem kids_eq (h : (cons head children rest).Within entries parent before after) :
    kids (entries.map Prod.fst) (some before.length) = children.numbers (before.length + 1) := by
  have hbefore : some before.length ∉ (before ++ [(parent, head)]).map Prod.fst := by
    intro hmem
    obtain ⟨entry, hentry, hp⟩ := List.mem_map.1 hmem
    exact Nat.lt_irrefl _ (h.upto_lt entry hentry _ hp)
  have hafter : some before.length ∉
      (rest.entries parent (before.length + 1 + children.size) ++ after).map Prod.fst := by
    intro hmem
    obtain ⟨entry, hentry, hp⟩ := List.mem_map.1 hmem
    have := h.behind_outside entry hentry _ hp
    omega
  have hkids := kidsFrom_entries h.below.parent_lt children
  rw [List.length_append] at hkids
  rw [kids, h.below.eq_append, List.map_append, List.map_append, kidsFrom_append, kidsFrom_append,
    kidsFrom_of_not_mem _ hbefore, kidsFrom_of_not_mem _ hafter, List.nil_append, List.append_nil,
    Nat.zero_add, List.length_map, List.length_append]
  exact hkids

end Parts

end Forest.Within

/-! ### Heads of elements -/

theorem kindsOf_append (id : Nat) (owned others : List (Option Nat × TokenKind)) :
    kindsOf id (owned ++ others) = kindsOf id owned ++ kindsOf id others :=
  List.filterMap_append

theorem kindsOf_map (id owner : Nat) (kinds : List TokenKind) :
    kindsOf id (kinds.map (some owner, ·)) = if owner = id then kinds else [] := by
  rw [kindsOf, List.filterMap_map]
  by_cases h : owner = id <;> simp [h]

/-- The tokens of one among several elements are those of its head. -/
theorem kindsOf_ownedOf (entries : List (Option Nat × Head)) (id : Nat) :
    kindsOf id (ownedOf entries) = (entries[id]?.map fun entry => entry.2.kinds).getD [] := by
  induction entries using List.reverseRecOn with
  | nil => rfl
  | append_singleton entries entry ih =>
    rw [ownedOf_concat entries entry.1 entry.2, kindsOf_append, ih, kindsOf_map]
    rcases Nat.lt_trichotomy id entries.length with hlt | rfl | hgt
    · rw [if_neg (Nat.ne_of_gt hlt), List.append_nil, List.getElem?_append_left hlt]
    · rw [if_pos rfl, List.getElem?_eq_none (Nat.le_refl _), List.getElem?_concat_length]
      rfl
    · have hbeyond : (entries ++ [entry]).length ≤ id := by
        rw [List.length_append]
        exact hgt
      rw [if_neg (Nat.ne_of_lt hgt), List.getElem?_eq_none (Nat.le_of_lt hgt),
        List.getElem?_eq_none hbeyond]
      rfl

theorem Head.filterMap_ofKind?_kinds (head : Head) :
    head.kinds.filterMap Literal.ofKind? = head.literals := by
  have hliterals : head.literals.filterMap (fun literal => Literal.ofKind? literal.kind) =
      head.literals.filterMap some :=
    List.filterMap_congr fun literal _ => by cases literal <;> rfl
  have hattributes : head.attributes.filterMap (fun entry =>
      Literal.ofKind? (.attribute entry.1 entry.2 true)) = [] :=
    List.filterMap_eq_nil_iff.2 fun _ _ => rfl
  have htext : head.text.toList.filterMap (fun text => Literal.ofKind? (.text text)) = [] :=
    List.filterMap_eq_nil_iff.2 fun _ _ => rfl
  rw [head.kinds_eq, List.filterMap_cons_none rfl, head.filterMap_inner _ rfl rfl, hliterals,
    hattributes, htext, List.filterMap_some, List.append_nil, List.append_nil]

theorem Head.filterMap_textValue?_kinds (head : Head) :
    head.kinds.filterMap TokenKind.textValue? = head.text.toList := by
  have hliterals : head.literals.filterMap (fun literal => literal.kind.textValue?) = [] :=
    List.filterMap_eq_nil_iff.2 fun literal _ => by cases literal <;> rfl
  have hattributes : head.attributes.filterMap (fun entry =>
      (TokenKind.attribute entry.1 entry.2 true).textValue?) = [] :=
    List.filterMap_eq_nil_iff.2 fun _ _ => rfl
  have htext : head.text.toList.filterMap (fun text => (TokenKind.text text).textValue?) =
      head.text.toList.filterMap some := rfl
  rw [head.kinds_eq, List.filterMap_cons_none rfl, head.filterMap_inner _ rfl rfl, hliterals,
    hattributes, htext, List.filterMap_some, List.nil_append, List.nil_append]

namespace ElementTree

section Reading

variable {tree : ElementTree} {kinds : List TokenKind} {entries : List (Option Nat × Head)}

/-- The head of an element is read back from what is seen of it. -/
theorem headOf_eq (hlooks : looks kinds tree.nodes = entries.map lookOf)
    (hcontents : contents kinds tree.owners = ownedOf entries) {id : Nat}
    {entry : Option Nat × Head} (h : entries[id]? = some entry) :
    ∃ element, tree.nodes[id]? = some element ∧ tree.headOf kinds id element = entry.2 := by
  have hlook : tree.nodes[id]?.map (Element.look kinds) = some (lookOf entry) := by
    rw [← getElem?_looks, hlooks, List.getElem?_map, h]
    rfl
  obtain ⟨element, helement, hseen⟩ := Option.map_eq_some_iff.1 hlook
  have howned : tree.ownedKinds kinds id = entry.2.kinds := by
    rw [ownedKinds, hcontents, kindsOf_ownedOf, h]
    rfl
  have hname : element.name = entry.2.name := congrArg Look.name hseen
  have hattributes : element.attributes.filterMap (fun i => kinds[i]?.bind TokenKind.attribute?) =
      entry.2.attributes := congrArg Look.attributes hseen
  refine ⟨element, helement, ?_⟩
  rw [headOf, howned, hname, hattributes, Head.filterMap_ofKind?_kinds,
    Head.filterMap_textValue?_kinds, Option.head?_toList]

/-- A forest that is part of a list of entries is read back from its outermost
    elements. -/
theorem forestFrom_numbers
    (hhead : ∀ id entry, entries[id]? = some entry →
      ∃ element, tree.nodes[id]? = some element ∧ tree.headOf kinds id element = entry.2)
    (hchildren : ∀ id, tree.children id = kids (entries.map Prod.fst) (some id))
    {forest : Forest} {parent : Option Nat} {before after : List (Option Nat × Head)}
    (h : forest.Within entries parent before after) {fuel : Nat} (hfuel : forest.size ≤ fuel) :
    tree.forestFrom kinds fuel (forest.numbers before.length) = forest := by
  induction forest generalizing parent before after fuel with
  | nil => cases fuel <;> rfl
  | cons head children rest ihchildren ihrest =>
    rw [Forest.size] at hfuel
    obtain ⟨fuel, rfl⟩ : ∃ n, fuel = n + 1 := ⟨fuel - 1, by omega⟩
    obtain ⟨element, helement, hread⟩ := hhead before.length (parent, head) h.getElem?_length
    have hsizes : children.size ≤ fuel ∧ rest.size ≤ fuel := by omega
    have hbelow := ihchildren h.below hsizes.1
    have hbehind := ihrest h.behind hsizes.2
    rw [List.length_append, List.length_singleton, ← h.kids_eq, ← hchildren] at hbelow
    rw [List.length_append, List.length_append, List.length_singleton,
      Forest.length_entries] at hbehind
    rw [Forest.numbers, forestFrom, helement]
    simp only [hread, hbelow, hbehind]

/-- The elements that are seen as those of a forest are read back as the forest. -/
theorem toForest_eq {forest : Forest} (hlinked : Linked (linksOf tree.nodes))
    (hlooks : looks kinds tree.nodes = (forest.entries none 0).map lookOf)
    (hcontents : contents kinds tree.owners = ownedOf (forest.entries none 0)) :
    tree.toForest kinds = forest := by
  have hparents : (linksOf tree.nodes).map Links.parent = (forest.entries none 0).map Prod.fst := by
    have h := congrArg (List.map Look.parent) hlooks
    rw [looks, List.map_map, List.map_map] at h
    rw [linksOf, List.map_map]
    exact h
  have hsize : tree.nodes.size = forest.size := by
    have h := congrArg List.length hlooks
    rwa [length_looks, List.length_map, Forest.length_entries] at h
  have hchildren (id : Nat) : tree.children id =
      kids ((forest.entries none 0).map Prod.fst) (some id) := by
    rw [children_eq_family hlinked, family, hparents]
  have hroots : tree.roots = forest.numbers 0 := by
    rw [roots_eq_family, family, hparents, kids, Forest.kidsFrom_entries (by simp)]
  have hwithin : forest.Within (forest.entries none 0) none [] [] :=
    ⟨(List.append_nil _).symm, by simp, by simp, by simp⟩
  rw [toForest, hroots, hsize]
  exact forestFrom_numbers (fun _ _ h => headOf_eq hlooks hcontents h) hchildren hwithin
    (Nat.le_refl _)

end Reading

end ElementTree

/-! ### The round trip -/

/-- A template that writes a forest is read, and its elements are that forest: the
    same heads, nested and ordered in the same way. -/
theorem toForest_build_written {forest : Forest} {text : List Char}
    (h : forest.WrittenTemplate text) (offset line : Nat) :
    ∃ tokens, tokenize (String.ofList text) = .ok tokens ∧
      (ElementTree.build (placeTokens tokens text offset line)).toForest
        ((placeTokens tokens text offset line).map PlacedToken.kind) = forest ∧
      (ElementTree.build (placeTokens tokens text offset line)).nodes.toList.map
          (fun element => (element.parent, element.name, element.kind)) =
        (forest.entries none 0).map fun (parent, head) => (parent, head.name, .tag) := by
  obtain ⟨tokens, htokens, hkinds⟩ := tokenize_written h
  refine ⟨tokens, htokens, ?_⟩
  have hplain : (tokens.map Token.kind).map TokenKind.plain = forest.kinds ∨
      (tokens.map Token.kind).map TokenKind.plain = .newline :: forest.kinds := by
    rw [List.map_map]
    exact hkinds
  obtain ⟨hlooks, hcontents⟩ := ElementTree.ofKinds_of_plain hplain
  rw [ElementTree.build, map_kind_placeTokens]
  refine ⟨ElementTree.toForest_eq (ElementTree.linked_ofKinds _) hlooks hcontents, ?_⟩
  have hseen := congrArg (List.map fun look => (look.parent, look.name, look.kind)) hlooks
  rw [looks, List.map_map, List.map_map] at hseen
  exact hseen

/-- A menu: a list with a class and attributes, a text in an entry, an element two
    levels down, and a second root with an id. -/
def menu : Forest :=
  .cons ⟨"ul", [.ofClass "nav"], [(":a[0]", some "'x'"), ("hidden", none)], none⟩
    (.cons ⟨"li", [], [], some "Hi"⟩ .nil
      (.cons ⟨"li", [], [], none⟩ (.cons ⟨"my-b", [], [], none⟩ .nil .nil) .nil))
    (.cons ⟨"p", [.ofId "x"], [], none⟩ .nil .nil)

/-- The menu as a text: with a wrapped list of attributes, blank lines, both kinds of
    line ends, and blanks of both kinds. -/
def menuText : List Char :=
  "ul.nav(:a[0]='x',\r\n  hidden)\n \n  li Hi\r\n  li\n  \tmy-b\np#x\n".toList

theorem written_menu : menu.WrittenTemplate menuText := by
  have hli : IsTagName "li".toList :=
    ⟨⟨'l', rfl, by decide⟩, ⟨'i', rfl, by decide⟩, List.all_eq_true.1 rfl, by decide, by decide⟩
  -- The heads, from the first line to the last.
  have hlist : Head.Written
      ⟨"ul", [.ofClass "nav"], [(":a[0]", some "'x'"), ("hidden", none)], none⟩
      "ul.nav(:a[0]='x',\r\n  hidden)".toList := by
    have hwf : Head.WellFormed
        ⟨"ul", [.ofClass "nav"], [(":a[0]", some "'x'"), ("hidden", none)], none⟩ := by
      refine ⟨⟨⟨'u', rfl, by decide⟩, ⟨'l', rfl, by decide⟩, List.all_eq_true.1 rfl, by decide,
        by decide⟩, ?_, ?_, ?_, ?_⟩
      · exact List.forall_mem_singleton.2 ⟨by decide, List.all_eq_true.1 rfl⟩
      · have hfirst : IsAttributeName ":a[0]".toList :=
          ⟨⟨':', rfl, by decide⟩, by decide, by decide, by simp [Text.isAsciiBlank]⟩
        have hsecond : IsAttributeName "hidden".toList :=
          ⟨⟨'h', rfl, by decide⟩, by decide, by decide, by simp [Text.isAsciiBlank]⟩
        exact List.forall_mem_cons.2 ⟨hfirst, List.forall_mem_singleton.2 hsecond⟩
      · refine List.forall_mem_cons.2 ⟨?_, List.forall_mem_singleton.2 (by simp)⟩
        rintro _ ⟨⟩
        exact ⟨'\'', ['x'], by decide, rfl, by decide, by decide⟩
      · simp
    have hgap : ∀ c ∈ [',', '\r', '\n', ' ', ' '], isGap c = true := by simp [isGap]
    have hnone : ∀ c ∈ ([] : List Char), isGap c = true := by simp
    exact .mk hwf (.parens hnone (.cons _ hgap (by decide) (.last _ hnone)))
  have htext : Head.Written ⟨"li", [], [], some "Hi"⟩ "li Hi".toList := by
    have hwf : Head.WellFormed ⟨"li", [], [], some "Hi"⟩ := by
      refine ⟨hli, by simp, by simp, by simp, ?_⟩
      rintro _ ⟨⟩
      exact ⟨⟨'H', by decide, by decide⟩, by simp⟩
    exact .mk hwf .nil
  have hentry : Head.Written ⟨"li", [], [], none⟩ "li".toList := by
    have hwf : Head.WellFormed ⟨"li", [], [], none⟩ := ⟨hli, by simp, by simp, by simp, by simp⟩
    exact .mk hwf .nil
  have hlow : Head.Written ⟨"my-b", [], [], none⟩ "my-b".toList := by
    have hwf : Head.WellFormed ⟨"my-b", [], [], none⟩ :=
      ⟨⟨⟨'m', rfl, by decide⟩, ⟨'b', rfl, by decide⟩, List.all_eq_true.1 rfl, by decide, by decide⟩,
        by simp, by simp, by simp, by simp⟩
    exact .mk hwf .nil
  have hroot : Head.Written ⟨"p", [.ofId "x"], [], none⟩ "p#x".toList := by
    have hwf : Head.WellFormed ⟨"p", [.ofId "x"], [], none⟩ :=
      ⟨⟨⟨'p', rfl, by decide⟩, ⟨'p', rfl, by decide⟩, List.all_eq_true.1 rfl, by decide, by decide⟩,
        List.forall_mem_singleton.2 ⟨by decide, List.all_eq_true.1 rfl⟩, by simp, by simp, by simp⟩
    exact .mk hwf .nil
  have hindent : Deeper [] "  ".toList := ⟨"  ".toList, by decide, List.all_eq_true.1 rfl, rfl⟩
  have hdeeper : Deeper "  ".toList "  \t".toList :=
    ⟨['\t'], by decide, List.all_eq_true.1 rfl, rfl⟩
  have hbeyond : Deeper "  \t".toList "  \t ".toList :=
    ⟨[' '], by decide, List.all_eq_true.1 rfl, rfl⟩
  have hblank : ∀ c ∈ [' '], Lexer.isInlineBlank c = true := List.all_eq_true.1 rfl
  -- The lines below the first one, and those behind them.
  have hlast := Forest.Written.cons .crlf hentry hdeeper
    (.cons .lf hlow hbeyond (.nil _) (.nil _)) (.nil _)
  have hbelow := Forest.Written.cons (.blankLine .lf hblank .lf) htext hdeeper (.nil _) hlast
  have hbehind := Forest.Written.cons .lf hroot hindent (.nil _) (.nil _)
  exact .direct hlist hindent hbelow hbehind (.inr ⟨['\n'], [], .lf, by simp, rfl⟩)

/-- The menu is read back from its text. -/
theorem toForest_build_menu :
    menu.WrittenTemplate menuText ∧
    ∃ tokens, tokenize (String.ofList menuText) = .ok tokens ∧
      (ElementTree.build (placeTokens tokens menuText 10 1)).toForest
        ((placeTokens tokens menuText 10 1).map PlacedToken.kind) = menu ∧
      (ElementTree.build (placeTokens tokens menuText 10 1)).nodes.toList.map
          (fun element => (element.parent, element.name, element.kind)) =
        (menu.entries none 0).map fun (parent, head) => (parent, head.name, .tag) :=
  ⟨written_menu, toForest_build_written written_menu 10 1⟩

end PugLint
