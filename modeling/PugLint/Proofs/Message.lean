import Mathlib.Data.List.Forall2
import PugLint.Message
import PugLint.Proofs.Text.Search

/-!
# Messages with their slots filled

A template is a sequence of texts, each with a slot behind it, and a last text. As long as the texts
and keys do not have the braces in them that would end them early, each slot is found where it was
written, and its value comes in its place. The values are no part of what is searched: they come
into the message as they are, with all braces in them.

* `Message.Slot`: a slot of a template with the text in front of it;
* `Message.Fills`: what a slot stands for;
* `Message.interpolateChars_written`: the slots of a template are filled one after the other;
* `Message.interpolate_written`: the message of a template.
-/

namespace PugLint.Message

open Text

/-- A slot of a template: the text in front of it, and the key between its braces. Neither of them
    has the braces in it that end it. -/
structure Slot where
  /-- The text in front of the slot. -/
  text : List Char
  /-- What is written between the braces. -/
  key : List Char
  text_plain : ¬opening <:+: text
  text_last : text.getLast? ≠ some '\x7b'
  key_plain : ¬closing <:+: key
  key_last : key.getLast? ≠ some '\x7d'

/-- A slot as it is written. -/
def Slot.written (slot : Slot) : List Char :=
  opening ++ slot.key ++ closing

/-- A template as it is written. -/
def written (slots : List Slot) (last : List Char) : List Char :=
  slots.flatMap (fun slot => slot.text ++ slot.written) ++ last

/-- A template with a value in place of each slot. -/
def filled (slots : List Slot) (values : List (List Char)) (last : List Char) : List Char :=
  (List.zipWith (fun slot value => slot.text ++ value) slots values).flatten ++ last

/-- What a slot stands for: the first value for its key without the blanks around it, or the slot
    as it is written if there is none. -/
inductive Fills (data : List (String × String)) (slot : Slot) : List Char → Prop
  | value {front back : List (String × String)} {value : String} :
    data = front ++ (String.ofList (trim slot.key), value) :: back →
    (∀ entry ∈ front, entry.1 ≠ String.ofList (trim slot.key)) → Fills data slot value.toList
  | unknown : (∀ entry ∈ data, entry.1 ≠ String.ofList (trim slot.key)) →
    Fills data slot slot.written

/-- What is put in place of a slot is what it stands for. -/
theorem fills_fill (data : List (String × String)) (slot : Slot) :
    Fills data slot (fill data slot.key) := by
  rw [fill]
  split
  · rename_i value hvalue
    obtain ⟨front, back, rfl, hfront⟩ := List.lookup_eq_some_iff.1 hvalue
    exact .value rfl fun entry hentry => (bne_iff_ne.1 (hfront entry hentry)).symm
  · rename_i hnone
    exact .unknown fun entry hentry =>
      (bne_iff_ne.1 (List.lookup_eq_none_iff.1 hnone entry hentry)).symm

theorem drop_opening (text : List Char) : (opening ++ text).drop 2 = text :=
  List.drop_left' rfl

theorem drop_closing (text : List Char) : (closing ++ text).drop 2 = text :=
  List.drop_left' rfl

theorem written_cons (slot : Slot) (slots : List Slot) (last : List Char) :
    written (slot :: slots) last =
      slot.text ++ (opening ++ (slot.key ++ (closing ++ written slots last))) := by
  simp only [written, Slot.written, List.flatMap_cons, List.append_assoc]

theorem filled_cons (slot : Slot) (slots : List Slot) (value : List Char)
    (values : List (List Char)) (last : List Char) :
    filled (slot :: slots) (value :: values) last =
      slot.text ++ (value ++ filled slots values last) := by
  simp only [filled, List.zipWith_cons_cons, List.flatten_cons, List.append_assoc]

/-- The slots of a template are filled one after the other. -/
theorem interpolateChars_written (data : List (String × String)) {last : List Char}
    (hlast : ¬opening <:+: last) (slots : List Slot) {fuel : Nat} (hfuel : slots.length ≤ fuel) :
    interpolateChars data fuel (written slots last) =
      filled slots (slots.map fun slot => fill data slot.key) last := by
  induction slots generalizing fuel with
  | nil =>
    cases fuel with
    | zero => rfl
    | succ fuel =>
      have hsearch : splitBefore? opening (written [] last) = none := splitBefore?_eq_none hlast
      rw [interpolateChars, hsearch]
      rfl
  | cons slot slots ih =>
    obtain ⟨fuel, rfl⟩ := Nat.exists_eq_add_one_of_ne_zero (Nat.ne_zero_of_lt hfuel)
    have hopening : splitBefore? opening (written (slot :: slots) last) =
        some (slot.text, opening ++ (slot.key ++ (closing ++ written slots last))) := by
      rw [written_cons]
      exact splitBefore?_double slot.text_plain slot.text_last _
    have hclosing : splitBefore? closing (slot.key ++ (closing ++ written slots last)) =
        some (slot.key, closing ++ written slots last) :=
      splitBefore?_double slot.key_plain slot.key_last _
    have hrest : interpolateChars data fuel (written slots last) =
        filled slots (slots.map fun slot => fill data slot.key) last :=
      ih (Nat.le_of_succ_le_succ hfuel)
    rw [interpolateChars, hopening]
    dsimp only
    rw [drop_opening, hclosing]
    dsimp only
    rw [drop_closing, hrest, List.map_cons, filled_cons, List.append_assoc]

theorem length_le_written (slots : List Slot) (last : List Char) :
    slots.length ≤ (written slots last).length := by
  induction slots with
  | nil => exact Nat.zero_le _
  | cons slot slots ih =>
    simp only [written_cons, List.length_append, List.length_cons]
    have hbraces : opening.length = 2 := rfl
    omega

/-- The message of a template has in place of each slot what the slot stands for, and is otherwise
    as it is written. -/
theorem interpolate_written (data : List (String × String)) (slots : List Slot) {last : List Char}
    (hlast : ¬opening <:+: last) :
    ∃ values, List.Forall₂ (Fills data) slots values ∧
      interpolate (String.ofList (written slots last)) data =
        String.ofList (filled slots values last) := by
  refine ⟨slots.map fun slot => fill data slot.key, ?_, ?_⟩
  · rw [List.forall₂_map_right_iff]
    exact List.forall₂_same.2 fun slot _ => fills_fill data slot
  · rw [interpolate, String.toList_ofList, String.length_ofList,
      interpolateChars_written data hlast slots (length_le_written slots last)]

/-- Two slots, and a value for the first one that is written like the second one. -/
def nestedSlots : List Slot :=
  [⟨['a', ' '], [' ', 'n', ' '], by decide, by decide, by decide, by decide⟩,
    ⟨[' '], ['k'], by decide, by decide, by decide, by decide⟩]

theorem interpolate_written_nested :
    ¬opening <:+: ['\x7b'] ∧
    ∃ values, List.Forall₂ (Fills [("n", "\x7b\x7bk\x7d\x7d"), ("k", "v")]) nestedSlots values ∧
      interpolate (String.ofList (written nestedSlots ['\x7b']))
          [("n", "\x7b\x7bk\x7d\x7d"), ("k", "v")] =
        String.ofList (filled nestedSlots values ['\x7b']) :=
  ⟨by decide, interpolate_written _ nestedSlots (by decide)⟩

end PugLint.Message
