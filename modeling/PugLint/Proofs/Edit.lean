import PugLint.Edit
import PugLint.Proofs.Text.Bytes

/-!
# Edits of a document

An edit replaces what stands in its range. Edits whose ranges do not overlap do not disturb each
other when they are carried out from the back to the front: an edit leaves everything in front of
its range as it was, and the ranges of the edits that are still to come lie there. So a fix
replaces all ranges at once, as they stand in the document before it.

* `Edit.apply_append`: one edit;
* `Edit.Separate`: edits whose ranges do not overlap;
* `Edit.Replaced`: a text with some of its pieces replaced, as edits say;
* `Fix.apply_replaced`: a fix replaces the ranges of its edits, whatever their order.
-/

namespace PugLint

open Text

/-! ### One edit -/

/-- An edit replaces what stands in its range. -/
theorem Edit.apply_append {edit : Edit} {before old after : List Char}
    (hstart : edit.start = byteLength before) (hstop : edit.stop = edit.start + byteLength old) :
    edit.apply (before ++ (old ++ after)) = before ++ (edit.newText.toList ++ after) := by
  have hfirst := splitAt?_append before (old ++ after)
  have hlast := splitAt?_append (before ++ old) after
  rw [byteLength_append, List.append_assoc, ← hstart, ← hstop] at hlast
  rw [← hstart] at hfirst
  rw [Edit.apply, if_pos (by omega), hfirst, hlast]
  exact List.append_assoc ..

/-- A fix of one edit replaces what stands in the range of the edit. -/
theorem Fix.apply_append {fix : Fix} {edit : Edit} (hedits : fix.edits = [edit])
    {source : String} {before old after : List Char}
    (hsource : source.toList = before ++ (old ++ after)) (hstart : edit.start = byteLength before)
    (hstop : edit.stop = edit.start + byteLength old) :
    fix.apply source = String.ofList (before ++ (edit.newText.toList ++ after)) := by
  rw [Fix.apply, backToFront, hedits, List.mergeSort_singleton, List.foldl_cons, List.foldl_nil,
    hsource, Edit.apply_append hstart hstop]

/-! ### Several edits -/

/-- The range of an edit goes from one boundary of characters of a text to another. -/
structure Edit.Fits (edit : Edit) (text : List Char) : Prop where
  start_le_stop : edit.start ≤ edit.stop
  isBoundary_start : isBoundary text edit.start = true
  isBoundary_stop : isBoundary text edit.stop = true

/-- The ranges of two edits do not overlap and start at different bytes. -/
structure Edit.Apart (edit edit' : Edit) : Prop where
  disjoint : edit.stop ≤ edit'.start ∨ edit'.stop ≤ edit.start
  start_ne : edit.start ≠ edit'.start

/-- Edits that a text has room for, none of them in the way of another one. -/
structure Edit.Separate (edits : List Edit) (text : List Char) : Prop where
  fits : ∀ edit ∈ edits, edit.Fits text
  apart : edits.Pairwise Edit.Apart

/-- A text that stands at a byte of a document, and the text with the new texts of edits in place
    of what stands in their ranges. The edits are in the order of the document, and everything
    between their ranges is kept. -/
inductive Edit.Replaced : Nat → List Char → List Edit → List Char → Prop
  /-- The text behind the last range. -/
  | nil (offset : Nat) (text : List Char) : Replaced offset text [] text
  /-- The text up to the next range, and what stands in that range. -/
  | cons {offset : Nat} {edit : Edit} {kept old text result : List Char} {edits : List Edit} :
    edit.start = offset + byteLength kept → edit.stop = edit.start + byteLength old →
    Replaced edit.stop text edits result →
    Replaced offset (kept ++ (old ++ text)) (edit :: edits)
      (kept ++ (edit.newText.toList ++ result))

theorem Edit.Apart.symm {edit edit' : Edit} (h : edit.Apart edit') : edit'.Apart edit :=
  ⟨h.disjoint.symm, h.start_ne.symm⟩

/-- Of two edits that do not overlap, the one that starts first ends before the other starts. -/
theorem Edit.Apart.stop_le {edit edit' : Edit} (h : edit.Apart edit')
    (hrange : edit'.start ≤ edit'.stop) (hle : edit.start ≤ edit'.start) :
    edit.stop ≤ edit'.start := by
  have hne := h.start_ne
  rcases h.disjoint with hstop | hstop <;> omega

/-- Edits that are carried out from the last to the first replace their ranges: what stands in
    front of a range is still the same when its turn comes. -/
theorem Edit.Replaced.foldr_apply {before text result : List Char} {edits : List Edit}
    (h : Replaced (byteLength before) text edits result) :
    edits.foldr Edit.apply (before ++ text) = before ++ result := by
  generalize hoffset : byteLength before = offset at h
  induction h generalizing before with
  | nil => rfl
  | @cons offset edit kept old text result edits hstart hstop hreplaced ih =>
    subst hoffset
    have hbehind : edits.foldr Edit.apply (before ++ (kept ++ (old ++ text))) =
        before ++ kept ++ (old ++ result) := by
      have hbytes : byteLength (before ++ (kept ++ old)) = edit.stop := by
        rw [byteLength_append, byteLength_append, hstop, hstart, Nat.add_assoc]
      simpa only [List.append_assoc] using ih hbytes
    rw [List.foldr_cons, hbehind,
      Edit.apply_append (by rw [hstart, byteLength_append]) hstop, List.append_assoc]

/-- Where edits follow each other in a document, their ranges can be replaced. -/
theorem Edit.exists_replaced {before text : List Char} {edits : List Edit}
    (hfits : ∀ edit ∈ edits, edit.Fits (before ++ text) ∧ byteLength before ≤ edit.start)
    (hordered : edits.Pairwise fun edit edit' => edit.stop ≤ edit'.start) :
    ∃ result, Replaced (byteLength before) text edits result := by
  induction edits generalizing before text with
  | nil => exact ⟨text, .nil _ _⟩
  | cons edit edits ih =>
    obtain ⟨⟨hfirst, hle⟩, hfits⟩ := List.forall_mem_cons.1 hfits
    obtain ⟨hbehind, hordered⟩ := List.pairwise_cons.1 hordered
    obtain ⟨kept, text, rfl, hstart⟩ := exists_append_of_isBoundary hfirst.isBoundary_start hle
    rw [← List.append_assoc] at hfirst hfits
    obtain ⟨old, text, rfl, hstop⟩ := exists_append_of_isBoundary hfirst.isBoundary_stop
      (by rw [byteLength_append, ← hstart]; exact hfirst.start_le_stop)
    rw [byteLength_append, ← hstart] at hstop
    have hbytes : byteLength (before ++ kept ++ old) = edit.stop := by
      rw [byteLength_append, byteLength_append, ← hstart, hstop]
    rw [← List.append_assoc] at hfits
    obtain ⟨result, hresult⟩ := ih
      (fun other hother => ⟨(hfits other hother).1, hbytes ▸ hbehind other hother⟩) hordered
    exact ⟨_, .cons hstart hstop (hbytes ▸ hresult)⟩

/-! ### Fixes -/

namespace Fix

variable {fix fix' : Fix} {text : List Char}

/-- The edits are carried out from the one that starts last to the one that starts first. -/
theorem pairwise_backToFront (h : Edit.Separate fix.edits text) :
    fix.backToFront.Pairwise fun edit edit' => edit'.start < edit.start := by
  have hperm : fix.backToFront.Perm fix.edits := List.mergeSort_perm ..
  have htrans (a b c : Edit) (hba : decide (b.start ≤ a.start) = true)
      (hcb : decide (c.start ≤ b.start) = true) : decide (c.start ≤ a.start) = true :=
    decide_eq_true (Nat.le_trans (of_decide_eq_true hcb) (of_decide_eq_true hba))
  have htotal (a b : Edit) : (decide (b.start ≤ a.start) || decide (a.start ≤ b.start)) = true := by
    simp [Nat.le_total]
  have hsorted : fix.backToFront.Pairwise fun edit edit' =>
      decide (edit'.start ≤ edit.start) = true :=
    List.pairwise_mergeSort htrans htotal fix.edits
  have hapart : fix.backToFront.Pairwise Edit.Apart :=
    hperm.symm.pairwise h.apart Edit.Apart.symm
  exact (hsorted.and hapart).imp fun hboth =>
    Nat.lt_of_le_of_ne (of_decide_eq_true hboth.1) hboth.2.start_ne.symm

/-- The order in which edits are listed does not matter. -/
theorem backToFront_of_perm (h : Edit.Separate fix.edits text) (hperm : fix'.edits.Perm fix.edits) :
    fix'.backToFront = fix.backToFront := by
  have h' : Edit.Separate fix'.edits text :=
    ⟨fun edit hedit => h.fits edit (hperm.mem_iff.1 hedit),
      hperm.symm.pairwise h.apart Edit.Apart.symm⟩
  have hsorted : fix'.backToFront.Perm fix.backToFront :=
    (List.mergeSort_perm ..).trans (hperm.trans (List.mergeSort_perm ..).symm)
  exact hsorted.eq_of_pairwise (fun _ _ _ _ hlt hgt => absurd hlt (Nat.lt_asymm hgt))
    (pairwise_backToFront h') (pairwise_backToFront h)

/-- A fix replaces the ranges of its edits all at once, with respect to the document before it, and
    the order in which the edits are listed does not matter. -/
theorem apply_replaced {source : String} (h : Edit.Separate fix.edits source.toList) :
    (∃ edits, edits.Perm fix.edits ∧
      Edit.Replaced 0 source.toList edits (fix.apply source).toList) ∧
    ∀ fix' : Fix, fix'.edits.Perm fix.edits → fix'.apply source = fix.apply source := by
  constructor
  · have hperm : fix.backToFront.reverse.Perm fix.edits :=
      (List.reverse_perm _).trans (List.mergeSort_perm ..)
    have hfits : ∀ edit ∈ fix.backToFront.reverse,
        edit.Fits ([] ++ source.toList) ∧ byteLength [] ≤ edit.start :=
      fun edit hedit => ⟨h.fits edit (hperm.mem_iff.1 hedit), Nat.zero_le _⟩
    have hordered : fix.backToFront.reverse.Pairwise fun edit edit' => edit.stop ≤ edit'.start := by
      have hstarts := List.pairwise_reverse.2 (pairwise_backToFront h)
      have hapart := hperm.symm.pairwise h.apart Edit.Apart.symm
      refine (hstarts.and hapart).imp_of_mem fun _ hedit' hboth => ?_
      exact hboth.2.stop_le (hfits _ hedit').1.start_le_stop (Nat.le_of_lt hboth.1)
    obtain ⟨result, hresult⟩ := Edit.exists_replaced hfits hordered
    refine ⟨fix.backToFront.reverse, hperm, ?_⟩
    have hfold := hresult.foldr_apply
    rw [List.foldr_reverse] at hfold
    rw [Fix.apply, String.toList_ofList]
    exact hfold ▸ hresult
  · intro fix' hperm
    rw [Fix.apply, backToFront_of_perm h hperm, Fix.apply]

/-- A letter of two bytes is removed, and two texts are put in where it starts and at the end; the
    last edit is listed first. -/
theorem apply_replaced_mixed :
    Edit.Separate [⟨4, 4, "."⟩, ⟨0, 1, "xyz"⟩, ⟨1, 3, ""⟩] "aéb".toList ∧
    (∃ edits, edits.Perm [⟨4, 4, "."⟩, ⟨0, 1, "xyz"⟩, ⟨1, 3, ""⟩] ∧
      Edit.Replaced 0 "aéb".toList edits
        (apply ⟨"", [⟨4, 4, "."⟩, ⟨0, 1, "xyz"⟩, ⟨1, 3, ""⟩]⟩ "aéb").toList) ∧
    apply ⟨"", [⟨1, 3, ""⟩, ⟨0, 1, "xyz"⟩, ⟨4, 4, "."⟩]⟩ "aéb" =
      apply ⟨"", [⟨4, 4, "."⟩, ⟨0, 1, "xyz"⟩, ⟨1, 3, ""⟩]⟩ "aéb" := by
  have hseparate : Edit.Separate [⟨4, 4, "."⟩, ⟨0, 1, "xyz"⟩, ⟨1, 3, ""⟩] "aéb".toList := by
    constructor
    · intro edit hedit
      simp only [List.mem_cons, List.not_mem_nil, or_false] at hedit
      rcases hedit with rfl | rfl | rfl <;> constructor <;> decide
    · refine List.pairwise_cons.2
        ⟨fun edit hedit => ?_, List.pairwise_pair.2 ⟨by decide, by decide⟩⟩
      simp only [List.mem_cons, List.not_mem_nil, or_false] at hedit
      rcases hedit with rfl | rfl <;> constructor <;> decide
  obtain ⟨hreplaced, hperm⟩ :=
    @apply_replaced ⟨"", [⟨4, 4, "."⟩, ⟨0, 1, "xyz"⟩, ⟨1, 3, ""⟩]⟩ "aéb" hseparate
  exact ⟨hseparate, hreplaced, hperm ⟨"", _⟩ (by decide)⟩

end Fix

end PugLint
