import PugLint.Proofs.Expression.Renaming
import PugLint.Proofs.Linter.Fixes
import PugLint.Proofs.Linter.Independence
import PugLint.Proofs.Linter.Spelling

/-!
# All uses of a property at once

The rule about `$scopedSlots` reports each use of the property and has a fix for each. All fixes
of a template can be applied, from the last to the first: the property is then used nowhere, and
the template is read as before.

The last use is replaced by `$slots`. The value of its attribute is read up to the same place, has
the same quotes around it and is cut in two at the same place, if it is a `v-for`; so the uses in
front of it stay where they are, and there are none behind. Without the last use, the template has
one use less, and so on.

* `Rule.exists_scopedSlotsOffsets_mend`, `TokenKind.exists_slotOffsets_mend`,
  `Lexer.Path.exists_mend`, `exists_tokenize_mend`: the last use in an expression, in a value, in a
  piece and in a template;
* `exists_tokenize_mended`: all uses in a template;
* `Linter.filter_lintTemplate_noScopedSlots`: what is reported are the uses in their order;
* `scopedSlots_fixes`: a template after the fixes of all of them.
-/

namespace PugLint

open Lexer Text Expression

/-! ### Values -/

namespace Rule

/-- The byte of a directive value from which on the deprecated property is sought. -/
def slotsFrom? (directive : Directive) (expression : List Char) : Option Nat :=
  if directive.is "for" then
    (splitIteration? expression).map fun (left, _) => byteLength left + 4
  else some 0

theorem scopedSlotsOffsets_eq (directive : Directive) (expression : List Char) :
    scopedSlotsOffsets directive expression = (slotsFrom? directive expression).elim []
      fun first => (offsets scopedSlots.toList expression).filter (first ≤ ·) := by
  rw [scopedSlotsOffsets, slotsFrom?]
  split
  · cases splitIteration? expression <;> rfl
  · exact (List.filter_eq_self.2 fun _ _ => decide_eq_true (Nat.zero_le _)).symm

/-- What stands behind does not tell from where on the property is sought. -/
theorem slotsFrom?_exchange {directive : Directive} {before rest : List Char} {first : Nat}
    (h : slotsFrom? directive (before ++ rest) = some first) (hle : first ≤ byteLength before)
    (rest' : List Char) : slotsFrom? directive (before ++ rest') = some first := by
  rw [slotsFrom?] at h ⊢
  split
  · rename_i hfor
    rw [if_pos hfor] at h
    obtain ⟨⟨left, right⟩, hsplit, rfl⟩ := Option.map_eq_some_iff.1 h
    obtain ⟨right', hsplit'⟩ :=
      ((cutAt_of_splitIteration? hsplit).exchange hle rest').exists_splitIteration?
    rw [hsplit']
    rfl
  · rename_i hfor
    rwa [if_neg hfor] at h

/-- The last use of the property in an expression is replaced. -/
theorem exists_scopedSlotsOffsets_mend {directive : Directive} {expression : List Char}
    {front : List Nat} {n : Nat} (h : scopedSlotsOffsets directive expression = front ++ [n]) :
    ∃ before after, expression = before ++ '$' :: ("scopedSlots".toList ++ after) ∧
      n = byteLength before ∧ (∀ m ∈ front, m + scopedSlots.utf8ByteSize ≤ n) ∧
      scopedSlotsOffsets directive (before ++ '$' :: ("slots".toList ++ after)) = front := by
  rw [scopedSlotsOffsets_eq] at h
  cases hfirst : slotsFrom? directive expression with
  | none =>
    rw [hfirst] at h
    cases front <;> cases h
  | some first =>
    rw [hfirst] at h
    have hlast : (offsets ('$' :: "scopedSlots".toList) expression).filter (first ≤ ·) =
        front ++ [n] := h
    obtain ⟨before, after, rfl, hn, hle, hfront, hrename⟩ := exists_last_offset_rename hlast
    refine ⟨before, after, rfl, hn, hfront, ?_⟩
    rw [scopedSlotsOffsets_eq, slotsFrom?_exchange hfirst (hn ▸ hle)]
    exact hrename "slots".toList (List.all_eq_true.1 (by decide +kernel)) (by decide)

end Rule

/-- The bytes of the value of an attribute where the deprecated property is read. -/
def TokenKind.slotOffsets : TokenKind → List Nat
  | .attribute raw (some value) _ =>
    ((Directive.parse? raw).elim [] fun directive =>
      Rule.scopedSlotsOffsets directive (unquoteChars value.toList)).map (unquotedOffset value + ·)
  | _ => []

/-- The number of bytes of the value of an attribute. -/
def TokenKind.valueSize : TokenKind → Nat
  | .attribute _ (some value) _ => value.utf8ByteSize
  | _ => 0

/-- The last use of the property in the value of an attribute is replaced. -/
theorem TokenKind.exists_slotOffsets_mend {raw value : String} {escaped : Bool} {front : List Nat}
    {n : Nat} (h : (TokenKind.attribute raw (some value) escaped).slotOffsets = front ++ [n]) :
    ∃ before after, value.toList = before ++ '$' :: ("scopedSlots".toList ++ after) ∧
      n = byteLength before ∧ (∀ m ∈ front, m + Rule.scopedSlots.utf8ByteSize ≤ n) ∧
      (TokenKind.attribute raw
        (some (String.ofList (before ++ '$' :: ("slots".toList ++ after)))) escaped).slotOffsets =
        front := by
  rw [slotOffsets] at h
  cases hparse : Directive.parse? raw with
  | none =>
    rw [hparse] at h
    cases front <;> cases h
  | some directive =>
    rw [hparse] at h
    obtain ⟨front, last, hoffsets, rfl, hlast⟩ := List.map_eq_append_iff.1 h
    obtain ⟨offset, rfl, rfl⟩ := List.map_eq_singleton_iff.1 hlast
    obtain ⟨before, after, hinside, rfl, hfront, hmend⟩ :=
      Rule.exists_scopedSlotsOffsets_mend hoffsets
    obtain ⟨opening, closing, hvalue, hopening, hexchange⟩ := exists_unquoteChars_exchange value
    have hquotes : quoted? (unquoteChars value.toList) = none →
        quoted? (before ++ '$' :: ("slots".toList ++ after)) = none := by
      rw [hinside]
      exact quoted?_exchange (d := 's') (by decide) (by decide) (by decide)
    obtain ⟨hunquote, hoffset⟩ := hexchange _ hquotes
    rw [hinside] at hvalue
    refine ⟨opening ++ before, after ++ closing, ?_, ?_, ?_, ?_⟩
    · rw [hvalue]
      simp only [List.append_assoc, List.cons_append]
    · rw [hopening, byteLength_append]
    · intro m hm
      obtain ⟨offset, hoffset, rfl⟩ := List.mem_map.1 hm
      have hle := hfront offset hoffset
      omega
    · have htext : opening ++ before ++ '$' :: ("slots".toList ++ (after ++ closing)) =
          opening ++ (before ++ '$' :: ("slots".toList ++ after) ++ closing) := by
        simp only [List.append_assoc, List.cons_append]
      generalize before ++ '$' :: ("slots".toList ++ after) = inside at *
      rw [htext, slotOffsets, hparse, String.toList_ofList, hunquote, hoffset, Option.elim_some,
        hmend, hopening]

/-! ### Templates -/

/-- The bytes of a template where a token with a given range reads the deprecated property. -/
def slotUses : TokenKind × Nat × Nat → List Nat
  | (kind, _, stop) => kind.slotOffsets.map (stop - kind.valueSize + ·)

namespace Lexer

theorem flatMap_slotUses_eq_nil_iff {n : Nat} {pieces : List Piece} :
    (extentsFrom n pieces).flatMap slotUses = [] ↔
      ∀ piece ∈ pieces, ∀ kind ∈ piece.kinds, kind.slotOffsets = [] := by
  induction pieces generalizing n with
  | nil => simp [extentsFrom]
  | cons piece pieces ih =>
    rw [extentsFrom, List.flatMap_append, List.append_eq_nil_iff, ih, List.forall_mem_cons]
    refine and_congr_left' ?_
    simp [slotUses, List.flatMap_eq_nil_iff]

/-- The last use of the property stands in an attribute, and none stands behind it. -/
theorem exists_last_use {n last : Nat} {pieces : List Piece} {uses : List Nat}
    (h : (extentsFrom n pieces).flatMap slotUses = uses ++ [last]) :
    ∃ front piece back others, pieces = front ++ piece :: back ∧
      uses = (extentsFrom n front).flatMap slotUses ++ others ∧
      (extentsFrom (n + byteLength (textOf front)) [piece]).flatMap slotUses = others ++ [last] ∧
      ∀ piece ∈ back, ∀ kind ∈ piece.kinds, kind.slotOffsets = [] := by
  induction pieces generalizing n uses with
  | nil => cases uses <;> cases h
  | cons piece pieces ih =>
    rw [← List.singleton_append, extentsFrom_append, List.flatMap_append] at h
    rcases List.eq_nil_or_concat
      ((extentsFrom (n + byteLength (textOf [piece])) pieces).flatMap slotUses) with hnil | hlast
    · rw [hnil, List.append_nil] at h
      exact ⟨[], piece, pieces, uses, rfl, rfl, h, flatMap_slotUses_eq_nil_iff.1 hnil⟩
    · obtain ⟨others, last', hlast⟩ := hlast
      rw [List.concat_eq_append] at hlast
      rw [hlast, ← List.append_assoc] at h
      obtain ⟨rfl, hsame⟩ := List.append_inj' h rfl
      cases hsame
      obtain ⟨front, other, back, more, rfl, rfl, hpiece, hback⟩ := ih hlast
      refine ⟨piece :: front, other, back, more, rfl, ?_, ?_, hback⟩
      · rw [show piece :: front = [piece] ++ front from rfl, extentsFrom_append,
          List.flatMap_append, List.append_assoc]
      · rw [show piece :: front = [piece] ++ front from rfl, textOf_append, byteLength_append,
          ← Nat.add_assoc]
        exact hpiece

end Lexer

/-- A kind of token without the value of an attribute. -/
def TokenKind.form : TokenKind → TokenKind
  | .attribute name value escaped => .attribute name (value.map fun _ => "") escaped
  | kind => kind

/-- The bytes of a template where the deprecated property is read. -/
def usesOfSlots (tokens : List Token) (template : List Char) : List Nat :=
  (placeTokens tokens template 0 1).flatMap fun token => slotUses token.extent

theorem usesOfSlots_tokensFrom (pieces : List Piece) :
    usesOfSlots (tokensFrom .first pieces) (textOf pieces) =
      (extentsFrom 0 pieces).flatMap slotUses := by
  rw [← map_extent_placeTokens, List.flatMap_map, usesOfSlots]

theorem TokenKind.add_le_valueSize {kind : TokenKind} {n : Nat} (h : n ∈ kind.slotOffsets) :
    n + Rule.scopedSlots.utf8ByteSize ≤ kind.valueSize := by
  unfold slotOffsets at h
  split at h
  · rename_i raw value escaped
    obtain ⟨offset, hoffset, rfl⟩ := List.mem_map.1 h
    cases hparse : Directive.parse? raw with
    | none =>
      rw [hparse] at hoffset
      exact absurd hoffset List.not_mem_nil
    | some directive =>
      rw [hparse] at hoffset
      have hle := Rule.add_le_of_mem_scopedSlotsOffsets hoffset
      have hquotes := unquotedOffset_add_le value
      rw [valueSize]
      omega
  · exact absurd h List.not_mem_nil

/-- A use of the property lies within its token. -/
theorem add_le_of_mem_slotUses {kind : TokenKind} {start stop n : Nat}
    (hsize : kind.valueSize ≤ stop) (h : n ∈ slotUses (kind, start, stop)) :
    n + Rule.scopedSlots.utf8ByteSize ≤ stop := by
  obtain ⟨offset, hoffset, rfl⟩ := List.mem_map.1 h
  have hle := TokenKind.add_le_valueSize hoffset
  omega

/-- The value of a token lies within it. -/
theorem PlacedToken.Roomy.valueSize_le {token : PlacedToken} (h : token.Roomy) :
    token.kind.valueSize ≤ token.stop := by
  unfold TokenKind.valueSize
  split
  · rename_i raw value escaped hkind
    have hle := h.value_le raw value (by rw [attribute?, hkind]; rfl)
    omega
  · exact Nat.zero_le _

theorem TokenKind.exists_of_slotOffsets {kind : TokenKind} (h : kind.slotOffsets ≠ []) :
    ∃ raw value escaped, kind = .attribute raw (some value) escaped := by
  unfold slotOffsets at h
  split at h
  · exact ⟨_, _, _, rfl⟩
  · exact absurd rfl h

/-- The last use of the property in a piece is replaced. -/
theorem Lexer.Path.exists_mend {front back : List Piece} {piece : Piece}
    (h : Path ⟨.start, []⟩ (front ++ piece :: back) [] ⟨.done, []⟩) {n last : Nat}
    {uses : List Nat} (huses : (extentsFrom n [piece]).flatMap slotUses = uses ++ [last]) :
    ∃ before after piece', piece.text = before ++ (Rule.scopedSlots.toList ++ after) ∧
      last = n + byteLength before ∧ (∀ m ∈ uses, m + Rule.scopedSlots.utf8ByteSize ≤ last) ∧
      Path ⟨.start, []⟩ (front ++ piece' :: back) [] ⟨.done, []⟩ ∧
      piece'.text = before ++ ("$slots".toList ++ after) ∧
      piece'.kinds.map TokenKind.form = piece.kinds.map TokenKind.form ∧
      (extentsFrom n [piece']).flatMap slotUses = uses := by
  obtain ⟨raw, value, escaped, hkind⟩ : ∃ raw value escaped,
      TokenKind.attribute raw (some value) escaped ∈ piece.kinds := by
    by_contra hnone
    have hnil : (extentsFrom n [piece]).flatMap slotUses = [] := by
      refine flatMap_slotUses_eq_nil_iff.2 (List.forall_mem_singleton.2 fun kind hkind => ?_)
      by_contra hoffsets
      obtain ⟨raw, value, escaped, rfl⟩ := TokenKind.exists_of_slotOffsets hoffsets
      exact hnone ⟨raw, value, escaped, hkind⟩
    rw [hnil] at huses
    cases uses <;> cases huses
  obtain ⟨hat, hkinds, hbehind, hhead, hexchange⟩ :=
    h.exchange_attribute hkind (by simp [TokenKind.attribute?])
  obtain ⟨skipped, kinds, written, behind⟩ := piece
  dsimp only at hat hkinds hbehind hhead hexchange hkind
  subst hkinds hbehind
  have hextent (kind : TokenKind) (written : List Char) :
      (extentsFrom n [⟨skipped, [kind], written, []⟩]).flatMap slotUses =
        slotUses (kind, n + byteLength skipped, n + byteLength skipped + byteLength written) := by
    rw [extentsFrom, extentsFrom, List.append_nil, List.map_singleton, List.flatMap_singleton]
  rw [hextent, slotUses] at huses
  obtain ⟨offsets, rest, hoffsets, rfl, hrest⟩ := List.map_eq_append_iff.1 huses
  obtain ⟨offset, rfl, rfl⟩ := List.map_eq_singleton_iff.1 hrest
  obtain ⟨before, after, hvalue, rfl, hothers, hmend⟩ := TokenKind.exists_slotOffsets_mend hoffsets
  -- The dollar sign stays, and the characters behind it are plain.
  have hold : "scopedSlots".toList.all isValuePlain = true := by decide
  have hnew : "slots".toList.all isValuePlain = true := by decide
  obtain ⟨start, hstart, rfl, hat'⟩ := hat.revalue hvalue (by decide)
    (List.all_eq_true.1 hold) (List.all_eq_true.1 hnew)
  have hhead' : ∀ c ∈ (start ++ (before ++ '$' :: ("slots".toList ++ after))).head?,
      isSeparator c = false ∧ c ≠ ')' := by
    rwa [List.head?_append_of_ne_nil _ hstart] at hhead ⊢
  have htext (name : List Char) (kind : TokenKind) :
      Piece.text ⟨skipped, [kind], start ++ (before ++ '$' :: (name ++ after)), []⟩ =
        skipped ++ (start ++ before) ++ ('$' :: name ++ after) := by
    rw [Piece.text]
    simp only [List.append_assoc, List.cons_append, List.append_nil]
  -- The value starts at the same byte.
  have hbytes (name : List Char) : n + byteLength skipped +
      byteLength (start ++ (before ++ '$' :: (name ++ after))) -
        byteLength (before ++ '$' :: (name ++ after)) =
      n + byteLength skipped + byteLength start := by
    rw [byteLength_append start]
    omega
  rw [TokenKind.valueSize, utf8ByteSize_eq, hvalue, hbytes]
  refine ⟨skipped ++ (start ++ before), after, _, htext "scopedSlots".toList _, ?_, fun m hm => ?_,
    hexchange hat' hhead', htext "slots".toList _, rfl, ?_⟩
  · simp only [byteLength_append]
    omega
  · obtain ⟨offset, hoffset, rfl⟩ := List.mem_map.1 hm
    have hle := hothers offset hoffset
    omega
  · have hsize : (String.ofList (before ++ '$' :: ("slots".toList ++ after))).utf8ByteSize =
        byteLength (before ++ '$' :: ("slots".toList ++ after)) := by
      rw [utf8ByteSize_eq, String.toList_ofList]
    rw [hextent, slotUses, hmend, TokenKind.valueSize, hsize, hbytes]

/-- The last use of the property in a template is replaced. -/
theorem exists_tokenize_mend {template : String} {tokens : List Token}
    (h : tokenize template = .ok tokens) {uses : List Nat} {last : Nat}
    (huses : usesOfSlots tokens template.toList = uses ++ [last]) :
    ∃ before after tokens', template.toList = before ++ (Rule.scopedSlots.toList ++ after) ∧
      last = byteLength before ∧ (∀ n ∈ uses, n + Rule.scopedSlots.utf8ByteSize ≤ last) ∧
      tokenize (String.ofList (before ++ ("$slots".toList ++ after))) = .ok tokens' ∧
      tokens'.map (·.kind.form) = tokens.map (·.kind.form) ∧
      usesOfSlots tokens' (before ++ ("$slots".toList ++ after)) = uses := by
  have hroomy : ∀ token ∈ placeTokens tokens template.toList 0 1, token.Roomy :=
    fun token hm => ((Placement.straight_and_inPlace h [] []).2 token hm).roomy
  obtain ⟨pieces, hpath, htext, rfl⟩ := exists_path_tokenize h
  rw [← htext] at huses hroomy
  rw [usesOfSlots_tokensFrom] at huses
  obtain ⟨front, piece, back, others, rfl, rfl, hpiece, hback⟩ := exists_last_use huses
  rw [Nat.zero_add] at hpiece
  obtain ⟨before, after, piece', hold, rfl, hothers, hpath', hnew, hform, hmend⟩ :=
    hpath.exists_mend hpiece
  have htext' : textOf (front ++ piece' :: back) =
      textOf front ++ before ++ ("$slots".toList ++ (after ++ textOf back)) := by
    rw [textOf_append, textOf_cons, hnew]
    simp only [List.append_assoc]
  have htokens' := tokenize_of_path hpath'
  have huses' := usesOfSlots_tokensFrom (front ++ piece' :: back)
  rw [htext'] at htokens' huses'
  refine ⟨textOf front ++ before, after ++ textOf back, _, ?_, ?_, fun n hn => ?_, htokens', ?_, ?_⟩
  · rw [← htext, textOf_append, textOf_cons, hold]
    simp only [List.append_assoc]
  · rw [byteLength_append]
  · rcases List.mem_append.1 hn with hn | hn
    · obtain ⟨⟨kind, start, stop⟩, hm, hn⟩ := List.mem_flatMap.1 hn
      have hbounds := bounds_of_mem_extentsFrom hm
      have hplaced : (kind, start, stop) ∈ (placeTokens (tokensFrom .first (front ++ piece :: back))
          (textOf (front ++ piece :: back)) 0 1).map PlacedToken.extent := by
        rw [map_extent_placeTokens, extentsFrom_append]
        exact List.mem_append_left _ hm
      obtain ⟨token, htoken, heq⟩ := List.mem_map.1 hplaced
      cases heq
      have hle := add_le_of_mem_slotUses (hroomy token htoken).valueSize_le hn
      omega
    · exact hothers n hn
  · have hkinds (pieces : List Piece) : (tokensFrom .first pieces).map (·.kind.form) =
        pieces.flatMap fun piece => piece.kinds.map TokenKind.form := by
      rw [← List.map_flatMap, ← map_kind_tokensFrom .first, List.map_map]
      rfl
    rw [hkinds, hkinds, List.flatMap_append, List.flatMap_append, List.flatMap_cons,
      List.flatMap_cons, hform]
  · have hrest : ∀ n, (extentsFrom n back).flatMap slotUses = [] :=
      fun n => flatMap_slotUses_eq_nil_iff.2 hback
    rw [huses', extentsFrom_append, List.flatMap_append, Nat.zero_add,
      show piece' :: back = [piece'] ++ back from rfl, extentsFrom_append, List.flatMap_append,
      hmend, hrest, List.append_nil]

/-! ### Fixes -/

/-- The fix of a use of the property at a byte. -/
def slotsFix (n : Nat) : Fix :=
  ⟨"Replace `$scopedSlots` with `$slots`",
    [⟨n, n + Rule.scopedSlots.utf8ByteSize, "$slots"⟩]⟩

theorem slotsFix_apply {template : String} {before after : List Char}
    (h : template.toList = before ++ (Rule.scopedSlots.toList ++ after)) :
    (slotsFix (byteLength before)).apply template =
      String.ofList (before ++ ("$slots".toList ++ after)) := by
  have hedits : (slotsFix (byteLength before)).edits =
      [⟨byteLength before, byteLength before + Rule.scopedSlots.utf8ByteSize, "$slots"⟩] := rfl
  have hstop : byteLength before + Rule.scopedSlots.utf8ByteSize =
      byteLength before + byteLength Rule.scopedSlots.toList := by
    rw [utf8ByteSize_eq]
  exact Fix.apply_append hedits h rfl hstop

/-- All uses of the property in a template are replaced, from the last to the first. -/
theorem exists_tokenize_mended {template : String} {tokens : List Token}
    (h : tokenize template = .ok tokens) {uses : List Nat}
    (huses : usesOfSlots tokens template.toList = uses) :
    (∀ n ∈ uses, ∃ before after,
      template.toList = before ++ (Rule.scopedSlots.toList ++ after) ∧ n = byteLength before) ∧
    uses.Pairwise (fun m n => m + Rule.scopedSlots.utf8ByteSize ≤ n) ∧
    ∃ tokens', tokenize (uses.foldr (fun n text => (slotsFix n).apply text) template) =
        .ok tokens' ∧
      tokens'.map (·.kind.form) = tokens.map (·.kind.form) ∧
      usesOfSlots tokens' (uses.foldr (fun n text => (slotsFix n).apply text) template).toList =
        [] := by
  induction uses using List.reverseRecOn generalizing template tokens with
  | nil => exact ⟨List.forall_mem_nil _, .nil, tokens, h, rfl, huses⟩
  | append_singleton uses last ih =>
    obtain ⟨before, after, tokens', htext, rfl, hle, htokens', hform, huses'⟩ :=
      exists_tokenize_mend h huses
    have happly := slotsFix_apply htext
    have huses' : usesOfSlots tokens' ((slotsFix (byteLength before)).apply template).toList =
        uses := by
      rw [happly, String.toList_ofList]
      exact huses'
    rw [← happly] at htokens'
    obtain ⟨hplaces, hpairwise, tokens'', htokens'', hform', hnil⟩ := ih htokens' huses'
    rw [List.foldr_append, List.foldr_cons, List.foldr_nil]
    refine ⟨fun n hn => ?_, ?_, tokens'', htokens'', hform'.trans hform, hnil⟩
    · rcases List.mem_append.1 hn with hn | hn
      · -- What stands in front of the last use is the same before and after it is replaced.
        obtain ⟨front, back, hfront, rfl⟩ := hplaces n hn
        rw [happly, String.toList_ofList] at hfront
        have hstarts : front ++ Rule.scopedSlots.toList <+:
            before ++ ("$slots".toList ++ after) := by
          rw [hfront, ← List.append_assoc]
          exact List.prefix_append _ _
        obtain ⟨between, rfl⟩ := isPrefix_of_byteLength_le hstarts (List.prefix_append _ _)
          (by rw [byteLength_append, ← utf8ByteSize_eq]; exact hle _ hn)
        exact ⟨front, _, by rw [htext, List.append_assoc, List.append_assoc], rfl⟩
      · rw [List.mem_singleton.1 hn]
        exact ⟨before, after, htext, rfl⟩
    · refine List.pairwise_append.2 ⟨hpairwise, List.pairwise_singleton _ _, fun m hm n hn => ?_⟩
      rw [List.mem_singleton.1 hn]
      exact hle m hm

/-! ### Reports -/

/-- What is found where the property is used. -/
def slotsFinding (n : Nat) : Finding :=
  .problem "deprecated" [] n (n + Rule.scopedSlots.utf8ByteSize) (some (slotsFix n))

theorem TokenKind.slotOffsets_eq_nil {kind : TokenKind} (h : kind.attribute? = none) :
    kind.slotOffsets = [] := by
  by_contra hne
  obtain ⟨raw, value, escaped, rfl⟩ := exists_of_slotOffsets hne
  cases h

/-- Of an attribute, the rule finds the uses of the property in its value. -/
theorem Rule.check_noScopedSlots {view : View} {raw : String} {value : Option String}
    (hroomy : view.token.Roomy) (hattribute : view.token.attribute? = some (raw, value)) :
    noScopedSlots.check .attribute view = (slotUses view.token.extent).map slotsFinding := by
  obtain ⟨escaped, hkind⟩ := TokenKind.exists_of_attribute? hattribute
  simp only [noScopedSlots, atAttributes, hattribute, PlacedToken.extent, slotUses, hkind,
    TokenKind.slotOffsets, TokenKind.valueSize]
  cases value with
  | none => cases Directive.parse? raw <;> rfl
  | some value =>
    cases hparse : Directive.parse? raw with
    | none =>
      simp only [hparse]
      rfl
    | some directive =>
      simp only [hparse, Option.elim_some, List.map_map]
      refine List.map_congr_left fun offset hoffset => ?_
      have hcovers := hroomy.covers_expression hattribute (add_le_of_mem_scopedSlotsOffsets hoffset)
      have hstart : view.token.expressionStart value + offset =
          view.token.stop - value.utf8ByteSize + (unquotedOffset value + offset) := by
        rw [PlacedToken.expressionStart, hroomy.valueRange_eq hattribute, Nat.add_assoc]
      rw [PlacedToken.edit?_eq_some_iff.2 ⟨hcovers, rfl⟩, hstart]
      rfl

/-- At a token, the rule finds the uses of the property in its value. -/
theorem Rule.findingsAt_noScopedSlots {view : View} (hroomy : view.token.Roomy) :
    noScopedSlots.findingsAt view = (slotUses view.token.extent).map slotsFinding := by
  have helement : (if (view.tree.elementAt? view.index).isSome then [Event.element] else []).flatMap
      (fun event => noScopedSlots.check event view) = [] := by
    split <;> rfl
  rw [findingsAt, View.events, List.flatMap_append, helement, List.nil_append]
  cases hattribute : view.token.attribute? with
  | none =>
    have hcheck (event : Event) : noScopedSlots.check event view = [] := by
      cases event <;> simp only [noScopedSlots, atAttributes, hattribute]
    rw [PlacedToken.extent, slotUses, TokenKind.slotOffsets_eq_nil hattribute]
    exact List.flatMap_eq_nil_iff.2 fun event _ => hcheck event
  | some pair =>
    obtain ⟨raw, value⟩ := pair
    obtain ⟨escaped, hkind⟩ := TokenKind.exists_of_attribute? hattribute
    rw [← check_noScopedSlots hroomy hattribute, hkind, Event.ofKind?, Option.toList_some,
      List.flatMap_singleton]

/-- The diagnostic of a use of the property. -/
def slotsDiagnostic (severity : Severity) (lines : LineIndex) (n : Nat) : Diagnostic :=
  ((Reporter.ofRule Rule.noScopedSlots.info severity).diagnostic "deprecated" [] n
    (n + Rule.scopedSlots.utf8ByteSize) (some (slotsFix n))).located lines

/-- The rule reports the uses of the property in all tokens. -/
theorem Session.diagnostics_check_noScopedSlots {template : String} {tokens : List Token}
    (h : tokenize template = .ok tokens) (severity : Severity) :
    (check (.bare template) [(.noScopedSlots, severity)]).diagnostics =
      (usesOfSlots tokens template.toList).map
        (slotsDiagnostic severity (Document.bare template).lines) := by
  have hroomy : ∀ token ∈ (Document.bare template).stream.tokens, token.Roomy := fun token hm =>
    (TokenStream.inPlace_ofBlock (TemplateBlock.standsIn_bare template) token hm).roomy
  have hviews : (Document.bare template).views.flatMap Rule.noScopedSlots.findingsAt =
      (usesOfSlots tokens template.toList).map slotsFinding := by
    calc (Document.bare template).views.flatMap Rule.noScopedSlots.findingsAt
      _ = (Document.bare template).views.flatMap fun view =>
            (slotUses view.token.extent).map slotsFinding :=
          List.flatMap_congr fun view hview => Rule.findingsAt_noScopedSlots
            (hroomy _ (Document.token_mem_of_mem_views hview).2)
      _ = ((Document.bare template).views.map View.token).flatMap fun token =>
            (slotUses token.extent).map slotsFinding := by
          rw [List.flatMap_map]
      _ = (usesOfSlots tokens template.toList).map slotsFinding := by
          rw [Document.map_token_views, Document.stream_bare h, usesOfSlots, List.map_flatMap]
  have hfindings : findings (.bare template) [{ rule := .noScopedSlots, severity }] =
      (usesOfSlots tokens template.toList).map fun n =>
        (Reporter.ofRule Rule.noScopedSlots.info severity, slotsFinding n) := by
    have hblock : Rule.noScopedSlots.check .block (Document.bare template).blockView = [] := rfl
    simp only [findings, List.flatMap_cons, List.flatMap_nil, List.append_nil, hblock,
      List.map_nil, List.nil_append, ← List.map_flatMap]
    rw [hviews, List.map_map]
    rfl
  rw [diagnostics_check_singleton, reported, hfindings, List.filterMap_map,
    ← List.filterMap_eq_map]
  rfl

/-- Among the rules that there are, one has the name of the rule about the property. -/
theorem Rule.BuiltIn.eq_noScopedSlots {rule : Rule} (h : rule.BuiltIn)
    (hname : rule.name = Rule.noScopedSlots.name) : rule = .noScopedSlots := by
  cases h with
  | noScopedSlots => rfl
  | _ => exact absurd hname (of_decide_eq_false rfl)

@[simp]
theorem start_slotsDiagnostic (severity : Severity) (lines : LineIndex) (n : Nat) :
    (slotsDiagnostic severity lines n).start = n := by
  rw [slotsDiagnostic, Diagnostic.located]
  split <;> rfl

@[simp]
theorem stop_slotsDiagnostic (severity : Severity) (lines : LineIndex) (n : Nat) :
    (slotsDiagnostic severity lines n).stop = n + Rule.scopedSlots.utf8ByteSize := by
  rw [slotsDiagnostic, Diagnostic.located]
  split <;> rfl

@[simp]
theorem fix_slotsDiagnostic (severity : Severity) (lines : LineIndex) (n : Nat) :
    (slotsDiagnostic severity lines n).fix = some (slotsFix n) := by
  rw [slotsDiagnostic, Diagnostic.located]
  split <;> rfl

/-- A linter reports the uses of the property in a template in the order of the text, if the rule
    is registered. -/
theorem Linter.filter_lintTemplate_noScopedSlots [Caching] {registry : Registry}
    (hrules : ∀ entry ∈ registry.rules, entry.1.BuiltIn) {template : String} {tokens : List Token}
    (h : tokenize template = .ok tokens) (filename : String) :
    ((ofRegistry registry).lintTemplate .start template filename).1.diagnostics.filter
        (·.ruleName == Rule.noScopedSlots.name) =
      (registry.rules.find? (·.1.name == Rule.noScopedSlots.name)).elim [] fun entry =>
        (usesOfSlots tokens template.toList).map
          (slotsDiagnostic entry.2 (Document.bare template).lines) := by
  have hapart : (Session.check (.bare template) registry.rules).Apart :=
    ((Session.apart_start _).registerAll hrules).run
  have hdiagnostics := hapart.diagnostics Rule.noScopedSlots.name
  rw [Session.ran?_check] at hdiagnostics
  rw [lintTemplate_ofRegistry, LintResult.ofDiagnostics, filter_sortedByStart]
  change List.mergeSort ((Session.check (.bare template) registry.rules).diagnostics.filter _) _ = _
  rw [hdiagnostics]
  cases hfind : registry.rules.find? (·.1.name == Rule.noScopedSlots.name) with
  | none => exact List.mergeSort_nil
  | some entry =>
    obtain ⟨rule, severity⟩ := entry
    have hname : rule.name = Rule.noScopedSlots.name := by simpa using List.find?_some hfind
    obtain rfl := (hrules _ (List.mem_of_find?_eq_some hfind)).eq_noScopedSlots hname
    have hdocument : (Session.check (.bare template) registry.rules).document = .bare template :=
      Session.document_registerAll _ registry.rules
    rw [hdocument, Option.elim_some, Option.elim_some, Session.diagnostics_check_noScopedSlots h]
    refine List.mergeSort_of_pairwise (List.pairwise_map.2 ?_)
    refine (exists_tokenize_mended h rfl).2.1.imp fun hle => ?_
    simp only [start_slotsDiagnostic, decide_eq_true_eq]
    omega

/-- Uses of `$scopedSlots` are found, and all of them can be replaced: what is reported is the
    property as it stands in the template, at places that do not overlap, and each has a fix.
    After all fixes, applied from the last to the first, the template has the same tokens up to
    the values of attributes, and nothing is reported any more. -/
theorem scopedSlots_fixes [Caching] (registry : Registry)
    (hrules : ∀ entry ∈ registry.rules, entry.1.BuiltIn) {template : String} {tokens : List Token}
    (h : tokenize template = .ok tokens) (filename : String) :
    let report (template : String) :=
      ((Linter.ofRegistry registry).lintTemplate .start template filename).1.diagnostics.filter
        (·.ruleName == Rule.noScopedSlots.name)
    let fixed := (report template).foldr
      (fun diagnostic text => diagnostic.fix.elim text (·.apply text)) template
    (∀ diagnostic ∈ report template,
      (∃ fix, diagnostic.fix = some fix ∧
        fix.edits = [⟨diagnostic.start, diagnostic.stop, "$slots"⟩]) ∧
      slice? template.toList diagnostic.start diagnostic.stop = some "$scopedSlots".toList) ∧
    (report template).Pairwise (fun diagnostic other => diagnostic.stop ≤ other.start) ∧
    ∃ tokens', tokenize fixed = .ok tokens' ∧
      tokens'.map (·.kind.form) = tokens.map (·.kind.form) ∧ report fixed = [] := by
  intro report fixed
  have hreport {template : String} {tokens : List Token} (h : tokenize template = .ok tokens) :
      report template = _ := Linter.filter_lintTemplate_noScopedSlots hrules h filename
  cases hfind : registry.rules.find? (·.1.name == Rule.noScopedSlots.name) with
  | none =>
    have hnil : report template = [] := by rw [hreport h, hfind]; rfl
    simp only [fixed, hnil]
    exact ⟨List.forall_mem_nil _, .nil, tokens, h, rfl, hnil⟩
  | some entry =>
    obtain ⟨hplaces, hpairwise, tokens', htokens', hform, hnil⟩ := exists_tokenize_mended h rfl
    have huses : report template = (usesOfSlots tokens template.toList).map
        (slotsDiagnostic entry.2 (Document.bare template).lines) := by
      rw [hreport h, hfind]
      rfl
    have hfixed : fixed = (usesOfSlots tokens template.toList).foldr
        (fun n text => (slotsFix n).apply text) template := by
      simp only [fixed, huses, List.foldr_map, fix_slotsDiagnostic, Option.elim_some]
    rw [huses]
    refine ⟨List.forall_mem_map.2 fun n hn => ?_, List.pairwise_map.2 ?_, tokens', ?_, hform, ?_⟩
    · obtain ⟨before, after, htext, rfl⟩ := hplaces n hn
      have hslice := slice?_append before Rule.scopedSlots.toList after
      rw [← utf8ByteSize_eq, ← htext] at hslice
      simp only [start_slotsDiagnostic, stop_slotsDiagnostic, fix_slotsDiagnostic]
      exact ⟨⟨_, rfl, rfl⟩, hslice⟩
    · simpa using hpairwise
    · rw [hfixed]
      exact htokens'
    · rw [← hfixed] at htokens' hnil
      rw [hreport htokens', hfind, hnil]
      rfl

/-- An element with a `v-for` whose left side binds a variable of that name, and a value with a
    string and a member of that name. -/
def slotsTemplate : String :=
  "li(v-for=\"$scopedSlots of $scopedSlots\" :a='\"é\"+x.$scopedSlots+$scopedSlots')"

/-- The tokens of the element. -/
def slotsTokens : List Token :=
  [⟨.tag "li", ⟨1, 1⟩, ⟨1, 3⟩⟩, ⟨.startAttributes, ⟨1, 3⟩, ⟨1, 4⟩⟩,
    ⟨.attribute "v-for" (some "\"$scopedSlots of $scopedSlots\"") true, ⟨1, 4⟩, ⟨1, 40⟩⟩,
    ⟨.attribute ":a" (some "'\"é\"+x.$scopedSlots+$scopedSlots'") true, ⟨1, 41⟩, ⟨1, 78⟩⟩,
    ⟨.endAttributes, ⟨1, 78⟩, ⟨1, 79⟩⟩, ⟨.eos, ⟨1, 79⟩, ⟨1, 79⟩⟩]

theorem scopedSlots_fixes_iteration :
    let registry : Registry := ⟨[{ rule := .validFor }, { rule := .noScopedSlots }]⟩
    let report (template : String) :=
      ((Linter.ofRegistry registry).lintTemplate .start template "a.pug").1.diagnostics.filter
        (·.ruleName == Rule.noScopedSlots.name)
    let fixed := (report slotsTemplate).foldr
      (fun diagnostic text => diagnostic.fix.elim text (·.apply text)) slotsTemplate
    (∀ entry ∈ registry.rules, entry.1.BuiltIn) ∧ tokenize slotsTemplate = .ok slotsTokens ∧
      (report slotsTemplate).map (fun diagnostic => (diagnostic.start, diagnostic.stop)) =
        [(26, 38), (64, 76)] ∧
      fixed = "li(v-for=\"$scopedSlots of $slots\" :a='\"é\"+x.$scopedSlots+$slots')" ∧
      report fixed = [] := by
  intro registry report fixed
  have hrules : ∀ entry ∈ registry.rules, entry.1.BuiltIn :=
    List.forall_mem_cons.2 ⟨.validFor, List.forall_mem_cons.2 ⟨.noScopedSlots, nofun⟩⟩
  have htokens : tokenize slotsTemplate = .ok slotsTokens := by decide +kernel
  have huses : usesOfSlots slotsTokens slotsTemplate.toList = [26, 64] := by decide +kernel
  have hreport : report slotsTemplate =
      [26, 64].map (slotsDiagnostic .error (Document.bare slotsTemplate).lines) := by
    rw [← huses]
    exact Linter.filter_lintTemplate_noScopedSlots hrules htokens "a.pug"
  have hfixed : fixed = [26, 64].foldr (fun n text => (slotsFix n).apply text) slotsTemplate := by
    simp only [fixed, hreport, List.foldr_map, fix_slotsDiagnostic, Option.elim_some]
  obtain ⟨-, -, tokens, -, -, hnone⟩ := scopedSlots_fixes registry hrules htokens "a.pug"
  refine ⟨hrules, htokens, ?_, ?_, hnone⟩
  · have hsize : Rule.scopedSlots.utf8ByteSize = 12 := by decide
    simp [hreport, hsize]
  · rw [hfixed]
    decide +kernel

end PugLint
