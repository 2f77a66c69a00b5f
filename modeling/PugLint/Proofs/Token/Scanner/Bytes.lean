import PugLint.Proofs.LineIndex
import PugLint.Proofs.Token.Scanning
import PugLint.Token.Scanner

/-!
# Bytes of a template

A character of ASCII is its own byte, and no byte of another character is one of ASCII. So what a
scan looks for in the bytes of a text it finds where it stands in the text, and what it takes up to
there is a text again. An index of the scan is named by the text from there on.

* `Scanner.byte?_indexOf`: the byte in front of a text;
* `Scanner.endsLine_indexOf`, `Scanner.lineEnd?_indexOf`: the ends of lines;
* `Scanner.slice?_indexOf`: the text between two indices.
-/

namespace PugLint

namespace Scanner

open Text Lexer

/-! ### Bytes of characters -/

/-- The bytes of a character. -/
def bytesOf (c : Char) : List Char :=
  (String.utf8EncodeChar c).map Char.ofUInt8

theorem bytes_cons (c : Char) (cs : List Char) : bytes (c :: cs) = bytesOf c ++ bytes cs := by
  rw [bytes, List.flatMap_cons, List.map_append]
  rfl

theorem bytes_append (cs ds : List Char) : bytes (cs ++ ds) = bytes cs ++ bytes ds := by
  rw [bytes, List.flatMap_append, List.map_append]
  rfl

theorem toNat_ofUInt8 (b : UInt8) : (Char.ofUInt8 b).toNat = b.toNat :=
  UInt8.toNat_toUInt32 b

theorem length_bytesOf (c : Char) : (bytesOf c).length = c.utf8Size := by
  rw [bytesOf, List.length_map, String.length_utf8EncodeChar]

theorem length_bytes (cs : List Char) : (bytes cs).length = byteLength cs := by
  induction cs with
  | nil => rfl
  | cons c cs ih => rw [bytes_cons, List.length_append, length_bytesOf, ih, byteLength_cons]

/-- A character of ASCII is its own byte. -/
theorem bytesOf_of_lt {c : Char} (h : c.toNat < 128) : bytesOf c = [c] := by
  have hval : c.val.toNat ≤ 127 := Nat.le_of_lt_succ h
  rw [bytesOf, String.utf8EncodeChar, if_pos hval, List.map_singleton]
  refine congrArg (· :: []) (Char.ext (UInt32.toNat_inj.1 ?_))
  refine (toNat_ofUInt8 _).trans ?_
  rw [UInt8.toNat_ofNat']
  exact Nat.mod_eq_of_lt (Nat.lt_of_le_of_lt hval (by decide))

/-- The bytes of other characters are none of ASCII. -/
theorem le_of_mem_bytesOf {c : Char} (h : ¬c.toNat < 128) {b : Char} (hb : b ∈ bytesOf c) :
    128 ≤ b.toNat := by
  obtain ⟨byte, hbyte, rfl⟩ := List.mem_map.1 hb
  have hval : ¬c.val.toNat ≤ 127 := fun hle => h (Nat.lt_succ_of_le hle)
  have hlow : 128 ≤ byte.toNat := by
    rw [String.utf8EncodeChar, if_neg hval] at hbyte
    split at hbyte
    · simp only [List.mem_cons, List.not_mem_nil, or_false] at hbyte
      rcases hbyte with rfl | rfl <;> (rw [UInt8.toNat_ofNat']; omega)
    split at hbyte
    · simp only [List.mem_cons, List.not_mem_nil, or_false] at hbyte
      rcases hbyte with rfl | rfl | rfl <;> (rw [UInt8.toNat_ofNat']; omega)
    · simp only [List.mem_cons, List.not_mem_nil, or_false] at hbyte
      rcases hbyte with rfl | rfl | rfl | rfl <;> (rw [UInt8.toNat_ofNat']; omega)
  rwa [toNat_ofUInt8]

theorem utf8Size_of_lt {c : Char} (h : c.toNat < 128) : c.utf8Size = 1 := by
  rw [← length_bytesOf, bytesOf_of_lt h]
  rfl

/-- The first byte of a character. -/
def firstByte (c : Char) : Char :=
  (bytesOf c).headD c

theorem bytesOf_eq_cons (c : Char) : ∃ more, bytesOf c = firstByte c :: more := by
  obtain ⟨b, more, h⟩ : ∃ b more, bytesOf c = b :: more := by
    refine List.exists_cons_of_ne_nil fun hnil => ?_
    have hlength := length_bytesOf c
    rw [hnil] at hlength
    exact absurd hlength.symm (Nat.ne_of_gt c.utf8Size_pos)
  exact ⟨more, by rw [firstByte, h]; rfl⟩

theorem firstByte_of_lt {c : Char} (h : c.toNat < 128) : firstByte c = c := by
  rw [firstByte, bytesOf_of_lt h]
  rfl

theorem map_firstByte_cons {c : Char} (h : c.toNat < 128) (cs : List Char) :
    (c :: cs).head?.map firstByte = some c := by
  rw [List.head?_cons, Option.map_some, firstByte_of_lt h]

theorem le_firstByte {c : Char} (h : ¬c.toNat < 128) : 128 ≤ (firstByte c).toNat := by
  obtain ⟨more, hmore⟩ := bytesOf_eq_cons c
  exact le_of_mem_bytesOf h (hmore ▸ List.mem_cons_self)

/-! ### Classes of characters of ASCII -/

/-- A class of characters of ASCII. -/
def IsAscii (p : Char → Bool) : Prop :=
  ∀ c, p c = true → c.toNat < 128

/-- The bytes of a character are in the class just when the character is. -/
theorem IsAscii.mem_bytesOf {p : Char → Bool} (hp : IsAscii p) {b c : Char} (hb : b ∈ bytesOf c) :
    p b = p c := by
  by_cases hc : c.toNat < 128
  · rw [bytesOf_of_lt hc] at hb
    rw [List.mem_singleton.1 hb]
  · have hbyte : ¬p b = true := fun h => Nat.not_lt_of_le (le_of_mem_bytesOf hc hb) (hp b h)
    rw [Bool.eq_false_iff.2 hbyte, Bool.eq_false_iff.2 fun h => hc (hp c h)]

theorem IsAscii.firstByte {p : Char → Bool} (hp : IsAscii p) (c : Char) :
    p (firstByte c) = p c := by
  obtain ⟨more, hmore⟩ := bytesOf_eq_cons c
  exact hp.mem_bytesOf (hmore ▸ List.mem_cons_self)

theorem isAscii_beq {d : Char} (h : d.toNat < 128) : IsAscii (· == d) := by
  intro c hc
  rwa [beq_iff_eq.1 hc]

theorem firstByte_beq {c d : Char} (h : d.toNat < 128) : (firstByte c == d) = (c == d) :=
  (isAscii_beq h).firstByte c

theorem map_firstByte_beq {c? : Option Char} {d : Char} (h : d.toNat < 128) :
    (c?.map firstByte == some d) = (c? == some d) := by
  cases c? with
  | none => rfl
  | some c => exact firstByte_beq h

theorem IsAscii.or {p q : Char → Bool} (hp : IsAscii p) (hq : IsAscii q) :
    IsAscii fun c => p c || q c :=
  fun c h => (Bool.or_eq_true_iff.1 h).elim (hp c) (hq c)

theorem isAscii_isAlphanum : IsAscii Char.isAlphanum :=
  fun _ => lt_of_isAlphanum

theorem isAscii_isLower : IsAscii Char.isLower :=
  fun c h => isAscii_isAlphanum c (isAlphanum_of_isLower h)

theorem isAscii_isTagChar : IsAscii isTagChar :=
  ((isAscii_isAlphanum.or (isAscii_beq (by decide))).or (isAscii_beq (by decide))).or
    (isAscii_beq (by decide))

theorem isAscii_isLiteralChar : IsAscii isLiteralChar :=
  (isAscii_isAlphanum.or (isAscii_beq (by decide))).or (isAscii_beq (by decide))

theorem isAscii_isInlineBlank : IsAscii isInlineBlank :=
  (isAscii_beq (by decide)).or (isAscii_beq (by decide))

theorem isAscii_isAsciiBlank : IsAscii isAsciiBlank :=
  ((((isAscii_beq (by decide)).or (isAscii_beq (by decide))).or (isAscii_beq (by decide))).or
    (isAscii_beq (by decide))).or (isAscii_beq (by decide))

theorem isAscii_isSeparator : IsAscii isSeparator :=
  isAscii_isAsciiBlank.or (isAscii_beq (by decide))

theorem isAscii_isQuote : IsAscii isQuote :=
  ((isAscii_beq (by decide)).or (isAscii_beq (by decide))).or (isAscii_beq (by decide))

/-- What is taken of a class of ASCII is the same in the bytes of a text. -/
theorem takeWhile_bytes {p : Char → Bool} (hp : IsAscii p) (cs : List Char) :
    (bytes cs).takeWhile p = cs.takeWhile p := by
  induction cs with
  | nil => rfl
  | cons c cs ih =>
    by_cases hc : p c = true
    · rw [bytes_cons, bytesOf_of_lt (hp c hc), List.singleton_append, List.takeWhile_cons_of_pos hc,
        List.takeWhile_cons_of_pos hc, ih]
    · obtain ⟨more, hmore⟩ := bytesOf_eq_cons c
      have hfirst : ¬p (firstByte c) = true := by rwa [hp.firstByte]
      rw [bytes_cons, hmore, List.cons_append, List.takeWhile_cons_of_neg hfirst,
        List.takeWhile_cons_of_neg hc]

theorem byteLength_of_forall {p : Char → Bool} (hp : IsAscii p) {cs : List Char}
    (h : ∀ c ∈ cs, p c = true) : byteLength cs = cs.length := by
  induction cs with
  | nil => rfl
  | cons c cs ih =>
    obtain ⟨hc, hcs⟩ := List.forall_mem_cons.1 h
    rw [byteLength_cons, utf8Size_of_lt (hp c hc), ih hcs, List.length_cons, Nat.add_comm]

theorem byteLength_takeWhile {p : Char → Bool} (hp : IsAscii p) (cs : List Char) :
    byteLength (cs.takeWhile p) = (cs.takeWhile p).length :=
  byteLength_of_forall hp fun _ h => List.mem_takeWhile_imp h

/-! ### Indices -/

/-- The index of the text from there on. -/
def indexOf (text rest : List Char) : Nat :=
  byteLength text - byteLength rest

section Indices

variable {text rest taken : List Char}

theorem indexOf_append (passed rest : List Char) :
    indexOf (passed ++ rest) rest = byteLength passed := by
  rw [indexOf, byteLength_append, Nat.add_sub_cancel]

theorem indexOf_behind (h : taken ++ rest <:+ text) :
    indexOf text rest = indexOf text (taken ++ rest) + byteLength taken := by
  obtain ⟨passed, rfl⟩ := h
  rw [indexOf_append, ← List.append_assoc, indexOf_append, byteLength_append]

theorem indexOf_tail {c : Char} (h : c :: rest <:+ text) :
    indexOf text rest = indexOf text (c :: rest) + c.utf8Size := by
  have h : [c] ++ rest <:+ text := h
  exact indexOf_behind h

theorem indexOf_lt (h : rest <:+ text) : indexOf text rest < (bytes text).length ↔ rest ≠ [] := by
  obtain ⟨passed, rfl⟩ := h
  rw [indexOf_append, length_bytes, byteLength_append, Nat.lt_add_right_iff_pos]
  rcases rest with _ | ⟨c, cs⟩
  · exact iff_of_false (Nat.lt_irrefl 0) (not_not_intro rfl)
  · refine iff_of_true ?_ (List.cons_ne_nil c cs)
    exact Nat.add_pos_left c.utf8Size_pos _

theorem bytes_drop (h : rest <:+ text) : (bytes text).drop (indexOf text rest) = bytes rest := by
  obtain ⟨passed, rfl⟩ := h
  rw [indexOf_append, ← length_bytes, bytes_append, List.drop_left]

theorem bytesFrom?_indexOf (h : rest <:+ text) :
    bytesFrom? text (indexOf text rest) = some (bytes rest) := by
  have hle : indexOf text rest ≤ (bytes text).length := by
    rw [length_bytes]
    exact Nat.sub_le _ _
  rw [bytesFrom?, if_pos hle, bytes_drop h]

theorem byte?_indexOf_add (h : rest <:+ text) (n : Nat) :
    byte? text (indexOf text rest + n) = (bytes rest)[n]? := by
  rw [byte?, ← List.getElem?_drop, bytes_drop h]

/-- In front of a text stands its first byte. -/
theorem byte?_indexOf (h : rest <:+ text) :
    byte? text (indexOf text rest) = rest.head?.map firstByte := by
  rw [← Nat.add_zero (indexOf text rest), byte?_indexOf_add h]
  rcases rest with _ | ⟨c, cs⟩
  · rfl
  · obtain ⟨more, hmore⟩ := bytesOf_eq_cons c
    rw [bytes_cons, hmore]
    rfl

theorem suffix_of_cons {c : Char} (h : c :: rest <:+ text) : rest <:+ text :=
  (List.suffix_cons c rest).trans h

theorem indexOf_cons {c : Char} (hc : c.toNat < 128) (h : c :: rest <:+ text) :
    indexOf text (c :: rest) + 1 = indexOf text rest := by
  rw [indexOf_tail h, utf8Size_of_lt hc]

theorem minus?_of_le {a b : Nat} (h : b ≤ a) : minus? a b = some (a - b) :=
  if_pos h

/-- The index in front of a character of ASCII. -/
theorem minus?_indexOf {c : Char} (hc : c.toNat < 128) (h : c :: rest <:+ text) :
    minus? (indexOf text rest) 1 = some (indexOf text (c :: rest)) := by
  rw [← indexOf_cons hc h, minus?_of_le (Nat.le_add_left 1 _), Nat.add_sub_cancel]

/-- An index is that of a text in front only if nothing is between them. -/
theorem indexOf_beq (h : taken ++ rest <:+ text) :
    (indexOf text rest == indexOf text (taken ++ rest)) = taken.isEmpty := by
  rw [indexOf_behind h]
  rcases taken with _ | ⟨c, cs⟩
  · exact beq_self_eq_true _
  · have hpos := c.utf8Size_pos
    rw [byteLength_cons]
    refine beq_eq_false_iff_ne.2 ?_
    omega

theorem any_byte?_indexOf (h : rest <:+ text) {p : Char → Bool} (hp : IsAscii p) :
    (byte? text (indexOf text rest)).any p = rest.head?.any p := by
  rw [byte?_indexOf h]
  cases rest with
  | nil => rfl
  | cons c cs => exact hp.firstByte c

theorem byte?_indexOf_beq (h : rest <:+ text) {d : Char} (hd : d.toNat < 128) :
    (byte? text (indexOf text rest) == some d) = (rest.head? == some d) := by
  rw [byte?_indexOf h, map_firstByte_beq hd]

/-- The text between two indices. -/
theorem slice?_indexOf (h : taken ++ rest <:+ text) :
    slice? text (indexOf text (taken ++ rest)) (indexOf text rest) = some taken := by
  rw [indexOf_behind h]
  obtain ⟨passed, rfl⟩ := h
  rw [indexOf_append]
  exact slice?_append passed taken rest

/-- Between two characters of ASCII stands what their indices cut out. -/
theorem slice?_between {first last : Char} {body : List Char} (hfirst : first.toNat < 128)
    (hlast : last.toNat < 128) (h : first :: (body ++ [last] ++ rest) <:+ text) :
    ∃ stop, minus? (indexOf text rest) 1 = some stop ∧
      slice? text (indexOf text (first :: (body ++ [last] ++ rest)) + 1) stop = some body := by
  have hbody : body ++ (last :: rest) <:+ text := by
    have hbehind := suffix_of_cons h
    rwa [List.append_assoc] at hbehind
  have hstart : indexOf text (first :: (body ++ [last] ++ rest)) + 1 =
      indexOf text (body ++ (last :: rest)) := by
    rw [indexOf_cons hfirst h, List.append_assoc]
    rfl
  refine ⟨_, minus?_indexOf hlast ((List.suffix_append body _).trans hbody), ?_⟩
  rw [hstart, slice?_indexOf hbody]

/-! ### Lines -/

theorem isLineEnd_cons (c : Char) (cs : List Char) :
    isLineEnd (c :: cs) = (c == '\n' || (c == '\r' && cs.head? == some '\n')) := by
  by_cases hnewline : c = '\n'
  · subst hnewline
    rfl
  rw [beq_eq_false_iff_ne.2 hnewline, Bool.false_or]
  by_cases hreturn : c = '\r'
  · subst hreturn
    rcases cs with _ | ⟨d, ds⟩
    · rfl
    by_cases hd : d = '\n'
    · subst hd
      rfl
    · rw [List.head?_cons, beq_eq_false_iff_ne.2 fun h => hd (Option.some.inj h), isLineEnd]
      · rfl
      · rintro ⟨⟩
      · rintro ds ⟨⟩
      · rintro ds ⟨⟩
        exact hd rfl
  · rw [beq_eq_false_iff_ne.2 hreturn, Bool.false_and]
    exact isLineEnd_cons_of_ne hnewline hreturn cs

theorem endsLine_indexOf (h : rest <:+ text) :
    endsLine text (indexOf text rest) = isLineEnd rest := by
  rw [endsLine, byte?_indexOf h]
  rcases rest with _ | ⟨c, cs⟩
  · rfl
  rw [List.head?_cons, Option.map_some, isLineEnd_cons]
  dsimp only
  rw [firstByte_beq (by decide), firstByte_beq (by decide)]
  by_cases hc : c = '\r'
  · subst hc
    rw [indexOf_cons (by decide) h, byte?_indexOf_beq (suffix_of_cons h) (by decide)]
  · rw [beq_eq_false_iff_ne.2 hc, Bool.false_and, Bool.false_and]

/-- A line goes up to the first line feed, or to the carriage return in front of it. -/
theorem splitLine_append_of_notMem {line rest : List Char} (hline : '\n' ∉ line)
    (hrest : isLineEnd rest = true)
    (hreturn : line.getLast? = some '\r' → rest.head? ≠ some '\n') :
    splitLine (line ++ rest) = (line, rest) := by
  induction line with
  | nil =>
    rcases rest with _ | ⟨c, rest⟩
    · rfl
    · rw [List.nil_append, splitLine, if_pos hrest]
  | cons c line ih =>
    have hnewline : c ≠ '\n' := fun h => hline (h ▸ List.mem_cons_self)
    have hlater : '\n' ∉ line := fun h => hline (List.mem_cons_of_mem c h)
    have hend : isLineEnd (c :: (line ++ rest)) = false := by
      rw [isLineEnd_cons, beq_eq_false_iff_ne.2 hnewline, Bool.false_or, Bool.and_eq_false_iff]
      by_cases hc : c = '\r'
      · refine .inr (beq_eq_false_iff_ne.2 ?_)
        cases line with
        | nil => exact hreturn (hc ▸ rfl)
        | cons d line =>
          rintro ⟨⟩
          exact hlater List.mem_cons_self
      · exact .inl (beq_eq_false_iff_ne.2 hc)
    have hlast : line.getLast? = some '\r' → rest.head? ≠ some '\n' := by
      intro h
      refine hreturn ?_
      rw [List.getLast?_cons, h]
      rfl
    rw [List.cons_append, splitLine_cons hend, ih hlater hlast]

/-- In front of a text stands the last byte of the character in front of it. -/
theorem byte?_before {c : Char} (h : c :: rest <:+ text) :
    ∃ b ∈ bytesOf c, byte? text (indexOf text rest - 1) = some b := by
  have hpos := c.utf8Size_pos
  have hindex : indexOf text rest - 1 = indexOf text (c :: rest) + (c.utf8Size - 1) := by
    rw [indexOf_tail h]
    omega
  have hlt : c.utf8Size - 1 < (bytesOf c).length := by
    rw [length_bytesOf]
    omega
  refine ⟨(bytesOf c)[c.utf8Size - 1], List.getElem_mem hlt, ?_⟩
  rw [hindex, byte?_indexOf_add h, bytes_cons, List.getElem?_append_left hlt,
    List.getElem?_eq_getElem hlt]

theorem newline_notMem_bytes {cs : List Char} (h : '\n' ∉ cs) :
    ∀ b ∈ bytes cs, ¬(b == '\n') = true := by
  induction cs with
  | nil => exact nofun
  | cons c cs ih =>
    intro b hb
    rw [bytes_cons, List.mem_append] at hb
    rcases hb with hb | hb
    · rw [(isAscii_beq (by decide)).mem_bytesOf hb]
      exact fun hc => h (beq_iff_eq.1 hc ▸ List.mem_cons_self)
    · exact ih (fun hmem => h (List.mem_cons_of_mem c hmem)) b hb

theorem findIdx_bytes {cs : List Char} (h : '\n' ∉ cs) (ds : List Char) :
    (bytes (cs ++ ds)).findIdx (· == '\n') =
      byteLength cs + (bytes ds).findIdx (· == '\n') := by
  rw [bytes_append, List.findIdx_append, List.findIdx_eq_length.2 fun b hb => by
    simpa using newline_notMem_bytes h b hb]
  rw [if_neg (Nat.lt_irrefl _), length_bytes, Nat.add_comm]

/-- A text goes up to its first line feed. -/
theorem exists_append_newline (cs : List Char) :
    ∃ front back, cs = front ++ back ∧ '\n' ∉ front ∧ (back = [] ∨ ∃ ds, back = '\n' :: ds) := by
  induction cs with
  | nil => exact ⟨[], [], rfl, List.not_mem_nil, .inl rfl⟩
  | cons c cs ih =>
    by_cases hc : c = '\n'
    · exact ⟨[], c :: cs, rfl, List.not_mem_nil, .inr ⟨cs, hc ▸ rfl⟩⟩
    · obtain ⟨front, back, rfl, hfront, hback⟩ := ih
      exact ⟨c :: front, back, rfl, List.not_mem_cons_of_ne_of_not_mem (Ne.symm hc) hfront, hback⟩

theorem some_bind {α β : Type} (a : α) (f : α → Option β) : some a >>= f = f a := rfl

/-- The end of a line is found where the line is cut off. -/
theorem lineEnd?_indexOf (h : rest <:+ text) :
    lineEnd? text (indexOf text rest) = some (indexOf text (splitLine rest).2) := by
  obtain ⟨front, back, rfl, hfront, hback⟩ := exists_append_newline rest
  have hindex := indexOf_behind h
  have hend : isLineEnd back = true := by
    rcases hback with rfl | ⟨ds, rfl⟩ <;> rfl
  have hfeed : (bytes back).findIdx (· == '\n') = 0 := by
    rcases hback with rfl | ⟨ds, rfl⟩
    · rfl
    · rw [bytes_cons, bytesOf_of_lt (by decide)]
      rfl
  have hsuffix : back <:+ text := (List.suffix_append front back).trans h
  rw [lineEnd?, bytesFrom?_indexOf h, some_bind]
  dsimp only
  rw [findIdx_bytes hfront, hfeed, Nat.add_zero, ← hindex]
  rcases List.eq_nil_or_concat front with rfl | ⟨line, c, rfl⟩
  · rw [List.nil_append, if_neg (Nat.lt_irrefl _)]
    have hsplit : splitLine ([] ++ back) = ([], back) :=
      splitLine_append_of_notMem List.not_mem_nil hend nofun
    rw [List.nil_append] at hsplit
    rw [hsplit]
    rfl
  rw [List.concat_eq_append] at *
  have hlast : c :: back <:+ text := by
    rw [List.append_assoc] at h
    exact (List.suffix_append line _).trans h
  have hpos : 0 < indexOf text back := by
    rw [indexOf_tail hlast]
    have hsize := c.utf8Size_pos
    omega
  have hlt : indexOf text (line ++ [c] ++ back) < indexOf text back := by
    rw [hindex, byteLength_append, byteLength_cons]
    have hsize := c.utf8Size_pos
    omega
  obtain ⟨b, hb, hbyte⟩ := byte?_before hlast
  rw [if_pos hlt, minus?_of_le (b := 1) hpos, some_bind, hbyte, some_bind,
    (isAscii_beq (by decide)).mem_bytesOf hb]
  -- A carriage return belongs to the end of the line if a line feed follows.
  by_cases hreturn : c = '\r' ∧ back ≠ []
  · obtain ⟨rfl, hne⟩ := hreturn
    obtain ⟨ds, rfl⟩ := hback.resolve_left hne
    have hinside := (indexOf_lt hsuffix).2 hne
    have hline : '\n' ∉ line := fun hmem => hfront (List.mem_append_left _ hmem)
    have hsplit : splitLine (line ++ '\r' :: '\n' :: ds) = (line, '\r' :: '\n' :: ds) :=
      splitLine_append_of_notMem hline rfl fun _ hhead => by cases hhead
    rw [beq_self_eq_true, Bool.true_and, if_pos (decide_eq_true hinside), List.append_assoc,
      List.singleton_append, hsplit, ← indexOf_cons (by decide) hlast]
    rfl
  · have hnot : ¬(c == '\r' && decide (indexOf text back < (bytes text).length)) = true := by
      rw [Bool.and_eq_true, beq_iff_eq, decide_eq_true_eq, indexOf_lt hsuffix]
      exact hreturn
    have hsplit := splitLine_append_of_notMem hfront hend fun hgetLast hhead => by
      rw [List.getLast?_concat, Option.some.injEq] at hgetLast
      refine hreturn ⟨hgetLast, ?_⟩
      rintro rfl
      cases hhead
    rw [if_neg hnot, hsplit]
    rfl

theorem measureIndent_indexOf (h : rest <:+ text) :
    measureIndent text (indexOf text rest) = (rest.takeWhile isInlineBlank).length := by
  rw [measureIndent, bytes_drop h, takeWhile_bytes isAscii_isInlineBlank]

end Indices

end Scanner

end PugLint
