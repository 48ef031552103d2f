import Tnt.Lib.Blocks
import Tnt.Lib.CText
import Mathlib.Data.Fintype.Basic
import Mathlib.Tactic.NormNum
/-!
# UTF-8 (`utf8.c`)

A pointer into a string is the list of bytes from it to the NUL, and a byte
behind the last one reads as the NUL. The loops that step through a string by
`p += len` visit the blocks of `cut`.

`valid_iff` says that `utf8IsValidString` accepts the concatenations of valid
sequences, and the lemmas after it say when cutting or changing a valid string
keeps it valid.
-/
open BaseLib

namespace Tnt

def esc : UInt8 := 0x1B

/-- `utf8_byte_length`: a byte that starts no sequence counts as one byte. -/
def utf8ByteLength (b : UInt8) : Nat :=
  if b &&& 0x80 = 0 then 1
  else if b &&& 0xE0 = 0xC0 then 2
  else if b &&& 0xF0 = 0xE0 then 3
  else if b &&& 0xF8 = 0xF0 then 4
  else 1

/-- `(b & 0xC0) == 0x80` -/
def isContinuation (b : UInt8) : Bool := b &&& 0xC0 == 0x80

/-- The `switch (len)` of `utf8_decode` and `utf8_is_valid_sequence`. -/
def utf8Codepoint (p : Bytes) (len : Nat) : Nat :=
  let s (i : Nat) := (byteAt p i).toNat
  match len with
  | 1 => s 0
  | 2 => (s 0 &&& 0x1F) <<< 6 ||| (s 1 &&& 0x3F)
  | 3 => (s 0 &&& 0x0F) <<< 12 ||| (s 1 &&& 0x3F) <<< 6 ||| (s 2 &&& 0x3F)
  | 4 => (s 0 &&& 0x07) <<< 18 ||| (s 1 &&& 0x3F) <<< 12 ||| (s 2 &&& 0x3F) <<< 6 ||| (s 3 &&& 0x3F)
  | _ => 0

/-- The bytes `1` to `len - 1` behind `p`. -/
def tailBytes (p : Bytes) (len : Nat) : List UInt8 := (List.range' 1 (len - 1)).map (byteAt p)

/-- `utf8_decode`: the codepoint and the number of bytes read. -/
def utf8Decode (p : Bytes) : Nat × Nat :=
  let len := utf8ByteLength (byteAt p 0)
  if (tailBytes p len).any (fun b => b == 0 || !isContinuation b) then ((byteAt p 0).toNat, 1)
  else (utf8Codepoint p len, len)

/-- `utf8_char_width` -/
def utf8CharWidth (cp : Nat) : Nat :=
  if cp < 0x80 then 1
  else if (0x4E00 ≤ cp ∧ cp ≤ 0x9FFF) ∨ (0x3400 ≤ cp ∧ cp ≤ 0x4DBF) ∨ (0x20000 ≤ cp ∧ cp ≤ 0x2A6DF) ∨
      (0x2A700 ≤ cp ∧ cp ≤ 0x2B73F) ∨ (0x2B740 ≤ cp ∧ cp ≤ 0x2B81F) ∨ (0x2B820 ≤ cp ∧ cp ≤ 0x2CEAF) ∨
      (0xF900 ≤ cp ∧ cp ≤ 0xFAFF) ∨ (0x2F800 ≤ cp ∧ cp ≤ 0x2FA1F) then 2
  else if 0xAC00 ≤ cp ∧ cp ≤ 0xD7AF then 2
  else if (0x3040 ≤ cp ∧ cp ≤ 0x309F) ∨ (0x30A0 ≤ cp ∧ cp ≤ 0x30FF) then 2
  else if 0xFF00 ≤ cp ∧ cp ≤ 0xFFEF then 2
  else 1

/-- The pieces of a string that a loop over `utf8_decode` visits. -/
def utf8Chars (s : Bytes) : List Bytes := cut (fun p => (utf8Decode p).2) s

/-- `utf8_strlen` -/
def utf8Strlen (s : Bytes) : Nat := (utf8Chars s).length

/-- `utf8_string_width` -/
def utf8StringWidth (s : Bytes) : Nat := ((utf8Chars s).map fun c => utf8CharWidth (utf8Decode c).1).sum

/-- The loop of `utf8_truncate`: the characters kept, at `width` columns so far. -/
def utf8TruncateLoop (maxWidth : Nat) : Nat → List Bytes → List Bytes
  | _, [] => []
  | width, c :: cs =>
    let charWidth := utf8CharWidth (utf8Decode c).1
    if width + charWidth > maxWidth then [] else c :: utf8TruncateLoop maxWidth (width + charWidth) cs

/-- `utf8_truncate` -/
def utf8Truncate (s : Bytes) (maxWidth : Nat) : Bytes := (utf8TruncateLoop maxWidth 0 (utf8Chars s)).flatten

/-- `utf8_remove_last_char`: the continuation bytes at the end and one byte more. -/
def utf8RemoveLastChar (s : Bytes) : Bytes := (s.reverse.dropWhile isContinuation).tail.reverse

/-- `utf8_remove_last_word`: the spaces at the end and the word before them. -/
def utf8RemoveLastWord (s : Bytes) : Bytes :=
  ((s.reverse.dropWhile (· == 0x20)).dropWhile (· != 0x20)).reverse

/-- `utf8_is_valid_sequence` -/
def utf8IsValidSequence (bytes : Bytes) (len : Nat) : Bool :=
  if len = 0 ∨ len > 4 then false
  else if utf8ByteLength (byteAt bytes 0) ≠ len then false
  else if (tailBytes bytes len).any (fun b => !isContinuation b) then false
  else
    let cp := utf8Codepoint bytes len
    match len with
    | 1 => !(cp = 0 ∨ cp > 0x7F)
    | 2 => !(cp < 0x80 ∨ cp > 0x7FF)
    | 3 => !(cp < 0x800 ∨ cp > 0xFFFF) && !(cp ≥ 0xD800 ∧ cp ≤ 0xDFFF)
    | _ => !(cp < 0x10000 ∨ cp > 0x10FFFF)

/-- One round of the loop of `utf8_is_valid_string`, for what `p` points at. -/
def utf8CharIsValid (p : Bytes) : Bool :=
  let len := utf8ByteLength (byteAt p 0)
  !(tailBytes p len).any (· == 0) && utf8IsValidSequence p len

/-- The pieces of a string that the loop of `utf8_is_valid_string` visits. -/
def utf8Sequences (s : Bytes) : List Bytes := cut (fun p => utf8ByteLength (byteAt p 0)) s

/-- `utf8_is_valid_string` -/
def utf8IsValidString (s : Bytes) : Bool := (utf8Sequences s).all utf8CharIsValid

/-! ## Bytes -/

theorem utf8ByteLength_eq (b : UInt8) : utf8ByteLength b =
    if b.toNat < 0xC0 then 1 else if b.toNat < 0xE0 then 2 else if b.toNat < 0xF0 then 3
    else if b.toNat < 0xF8 then 4 else 1 := by
  revert b
  exact forall_byte (by decide +kernel)

theorem isContinuation_iff (b : UInt8) : isContinuation b = true ↔ 0x80 ≤ b.toNat ∧ b.toNat < 0xC0 := by
  revert b
  exact forall_byte (by decide +kernel)

theorem utf8ByteLength_pos (b : UInt8) : 1 ≤ utf8ByteLength b ∧ utf8ByteLength b ≤ 4 := by
  rw [utf8ByteLength_eq]
  split_ifs <;> omega

/-! ## Reading at the front

What is read at the front of a string does not depend on what is cut off behind it. -/

theorem byteAt_take {p : Bytes} {i n : Nat} (h : i < n) : byteAt (p.take n) i = byteAt p i := by
  unfold byteAt
  rw [List.getD_eq_getElem?_getD, List.getElem?_take_of_lt h, List.getD_eq_getElem?_getD]

theorem tailBytes_take {p : Bytes} {len n : Nat} (h : len ≤ n) : tailBytes (p.take n) len = tailBytes p len := by
  apply List.map_congr_left
  intro i hi
  exact byteAt_take (by have := List.mem_range'_1.1 hi; omega)

theorem utf8Codepoint_take {p : Bytes} {len n : Nat} (h : len ≤ n) :
    utf8Codepoint (p.take n) len = utf8Codepoint p len := by
  have hbyte (i : Nat) (hi : i < len) : byteAt (p.take n) i = byteAt p i := byteAt_take (Nat.lt_of_lt_of_le hi h)
  unfold utf8Codepoint
  split <;> simp [hbyte]

theorem utf8IsValidSequence_take {p : Bytes} {len n : Nat} (hlen : 0 < len) (h : len ≤ n) :
    utf8IsValidSequence (p.take n) len = utf8IsValidSequence p len := by
  unfold utf8IsValidSequence
  rw [byteAt_take (by omega), tailBytes_take h, utf8Codepoint_take h]

theorem utf8Decode_take {p : Bytes} {n : Nat} (h : (utf8Decode p).2 ≤ n) (hn : 0 < n) :
    utf8Decode (p.take n) = utf8Decode p := by
  unfold utf8Decode at h ⊢
  simp only [byteAt_take hn] at h ⊢
  generalize utf8ByteLength (byteAt p 0) = len at h ⊢
  by_cases hbad : ((tailBytes p len).any fun b => b == 0 || !isContinuation b) = true
  · -- The byte that ends the character early, or the NUL in its place.
    have hbad' : ((tailBytes (p.take n) len).any fun b => b == 0 || !isContinuation b) = true := by
      obtain ⟨b, hb, hb'⟩ := List.any_eq_true.1 hbad
      obtain ⟨i, hi, rfl⟩ := List.mem_map.1 hb
      refine List.any_eq_true.2 ⟨_, List.mem_map_of_mem hi, ?_⟩
      rcases Nat.lt_or_ge i n with hin | hin
      · rw [byteAt_take hin]
        exact hb'
      · simp [byteAt, List.getD_eq_getElem?_getD, List.getElem?_take_eq_none hin]
    rw [if_pos hbad, if_pos hbad']
  · rw [if_neg hbad] at h
    rw [tailBytes_take h, if_neg hbad, if_neg hbad, utf8Codepoint_take h]

/-! ## Valid sequences -/

/-- A valid sequence of its own length: one character. -/
def IsChar (c : Bytes) : Prop := utf8IsValidSequence c c.length = true

theorem tailBytes_self (c : Bytes) : tailBytes c c.length = c.tail := by
  apply List.ext_getElem
  · simp [tailBytes]
  · intro i h1 h2
    simp only [tailBytes, List.length_map, List.length_range', List.length_tail] at h1 h2
    simp [tailBytes, byteAt, List.getD_eq_getElem?_getD, Nat.add_comm 1 i,
      List.getElem?_eq_getElem (show i + 1 < c.length by omega)]

theorem IsChar.length {c : Bytes} (h : IsChar c) : 1 ≤ c.length ∧ c.length ≤ 4 := by
  unfold IsChar utf8IsValidSequence at h
  split_ifs at h
  omega

theorem IsChar.ne_nil {c : Bytes} (h : IsChar c) : c ≠ [] := List.ne_nil_of_length_pos h.length.1

theorem IsChar.byteLength {c : Bytes} (h : IsChar c) : utf8ByteLength (byteAt c 0) = c.length := by
  unfold IsChar utf8IsValidSequence at h
  split_ifs at h with h1 h2
  simpa using h2

theorem IsChar.tail {c : Bytes} (h : IsChar c) : ∀ b ∈ c.tail, isContinuation b = true := by
  unfold IsChar utf8IsValidSequence at h
  rw [tailBytes_self] at h
  split_ifs at h with h1 h2 h3
  simpa using h3

theorem isChar_single (b : UInt8) : IsChar [b] ↔ b ≠ 0 ∧ b.toNat < 0x80 := by
  revert b
  exact forall_byte (by unfold IsChar; decide +kernel)

theorem utf8ByteLength_of_two_le {b : UInt8} (h : 2 ≤ utf8ByteLength b) : 0xC0 ≤ b.toNat := by
  rw [utf8ByteLength_eq] at h
  split_ifs at h <;> omega

/-- Either one ASCII byte, or bytes that are all not ASCII. -/
theorem IsChar.cases {c : Bytes} (h : IsChar c) :
    (∃ b, c = [b] ∧ b ≠ 0 ∧ b.toNat < 0x80) ∨ 2 ≤ c.length ∧ ∀ b ∈ c, 0x80 ≤ b.toNat := by
  obtain ⟨b, t, rfl⟩ := List.exists_cons_of_ne_nil h.ne_nil
  cases t with
  | nil => exact .inl ⟨b, rfl, (isChar_single b).1 h⟩
  | cons b' t =>
    refine .inr ⟨by simp, fun x hx => ?_⟩
    rcases List.mem_cons.1 hx with rfl | hx
    · have h2 : 2 ≤ utf8ByteLength x := by simpa [byteAt] using h.byteLength ▸ (by simp : 2 ≤ (x :: b' :: t).length)
      have := utf8ByteLength_of_two_le h2
      omega
    · exact ((isContinuation_iff x).1 (h.tail x hx)).1

theorem IsChar.zero_notMem {c : Bytes} (h : IsChar c) : 0 ∉ c := by
  rcases h.cases with ⟨b, rfl, hb, -⟩ | ⟨-, hb⟩
  · simpa using Ne.symm hb
  · intro h0
    simpa using hb 0 h0

/-- The first byte of a character is not a continuation byte. -/
theorem IsChar.head {c : Bytes} (h : IsChar c) : isContinuation (byteAt c 0) = false := by
  rw [Bool.eq_false_iff, ne_eq, isContinuation_iff]
  intro hc
  rcases h.cases with ⟨b, rfl, -, hb⟩ | ⟨hl, -⟩
  · simp only [byteAt, List.getD_cons_zero] at hc
    omega
  · rw [← h.byteLength] at hl
    have := utf8ByteLength_of_two_le hl
    omega

/-- The first byte of a character tells its length. -/
theorem isChar_reads (c l : Bytes) (h : IsChar c) :
    c ≠ [] ∧ blockLen (fun p => utf8ByteLength (byteAt p 0)) (c ++ l) = c.length := by
  refine ⟨h.ne_nil, ?_⟩
  have hl := h.length
  rw [blockLen, byteAt_append (by omega), h.byteLength]
  omega

/-! ## Valid strings -/

theorem charIsValid_iff {c : Bytes} (hc : c ≠ []) (hl : c.length ≤ utf8ByteLength (byteAt c 0)) :
    utf8CharIsValid c = true ↔ IsChar c := by
  have hpos := List.length_pos_iff.2 hc
  rcases hl.lt_or_eq with hl | hl
  · constructor
    · intro h
      simp only [utf8CharIsValid, Bool.and_eq_true, Bool.not_eq_true', List.any_eq_false] at h
      refine absurd ?_ (h.1 0 (List.mem_map.2 ⟨c.length, ?_, ?_⟩))
      · simp
      · rw [List.mem_range'_1]
        omega
      · simp [byteAt, List.getD_eq_getElem?_getD]
    · intro h
      have := h.byteLength
      omega
  · unfold utf8CharIsValid IsChar
    simp only [← hl, Bool.and_eq_true, Bool.not_eq_true', List.any_eq_false, tailBytes_self, beq_iff_eq]
    refine ⟨fun h => h.2, fun h => ⟨fun b hb h0 => ?_, h⟩⟩
    exact IsChar.zero_notMem h (h0 ▸ List.mem_of_mem_tail hb)

theorem mem_sequences {s c : Bytes} (h : c ∈ utf8Sequences s) :
    c ≠ [] ∧ c.length ≤ utf8ByteLength (byteAt c 0) := by
  obtain ⟨p, hp, rfl⟩ := mem_cut h
  obtain ⟨b, t, rfl⟩ := List.exists_cons_of_ne_nil hp
  have hpos := (utf8ByteLength_pos (byteAt (b :: t) 0)).1
  have hb : byteAt ((b :: t).take (blockLen (fun p => utf8ByteLength (byteAt p 0)) (b :: t))) 0 =
      byteAt (b :: t) 0 := by
    simp only [byteAt, List.getD_eq_getElem?_getD]
    rw [List.getElem?_take_of_lt (blockLen_pos _)]
  refine ⟨List.ne_nil_of_length_pos ?_, ?_⟩
  · have := @blockLen_pos _ (fun p => utf8ByteLength (byteAt p 0)) (b :: t)
    rw [List.length_take, List.length_cons]
    omega
  · rw [hb, List.length_take, blockLen]
    omega

/-- The valid strings are the concatenations of characters. -/
theorem valid_iff (s : Bytes) : utf8IsValidString s = true ↔ Tiled IsChar s := by
  rw [tiled_iff_cut isChar_reads]
  simp only [utf8IsValidString, List.all_eq_true]
  constructor
  · intro h c hc
    exact (charIsValid_iff (mem_sequences hc).1 (mem_sequences hc).2).1 (h c hc)
  · intro h c hc
    exact (charIsValid_iff (mem_sequences hc).1 (mem_sequences hc).2).2 (h c hc)

theorem valid_nil : utf8IsValidString [] = true := rfl

theorem valid_append {a : Bytes} (ha : utf8IsValidString a = true) (b : Bytes) :
    utf8IsValidString (a ++ b) = utf8IsValidString b := by
  rw [Bool.eq_iff_iff, valid_iff, valid_iff]
  exact tiled_append_iff isChar_reads ((valid_iff a).1 ha) b

theorem valid_zero_notMem {s : Bytes} (h : utf8IsValidString s = true) : 0 ∉ s := by
  obtain ⟨cs, rfl, hcs⟩ := (valid_iff s).1 h
  intro h0
  obtain ⟨c, hc, h0⟩ := List.mem_flatten.1 h0
  exact (hcs c hc).zero_notMem h0

/-- A valid string starts with a character. -/
theorem valid_cases {s : Bytes} (h : utf8IsValidString s = true) :
    s = [] ∨ ∃ c r, s = c ++ r ∧ IsChar c ∧ utf8IsValidString r = true := by
  obtain ⟨cs, rfl, hcs⟩ := (valid_iff s).1 h
  cases cs with
  | nil => exact .inl rfl
  | cons c cs =>
    exact .inr ⟨c, cs.flatten, rfl, hcs c List.mem_cons_self,
      (valid_iff _).2 ⟨cs, rfl, fun d hd => hcs d (List.mem_cons_of_mem _ hd)⟩⟩

theorem valid_of_isChar {c : Bytes} (h : IsChar c) : utf8IsValidString c = true :=
  (valid_iff c).2 ⟨[c], by simp, by simpa using h⟩

/-- ASCII text is valid. -/
theorem valid_of_ascii {s : Bytes} (h : ∀ b ∈ s, b ≠ 0 ∧ b.toNat < 0x80) : utf8IsValidString s = true := by
  rw [valid_iff]
  refine ⟨s.map fun b => [b], by simp [← List.flatMap_def], fun c hc => ?_⟩
  obtain ⟨b, hb, rfl⟩ := List.mem_map.1 hc
  exact (isChar_single b).2 (h b hb)

/-- An ASCII byte in a character is the whole of it. -/
theorem IsChar.eq_of_ascii {c : Bytes} (h : IsChar c) {b : UInt8} (hb : b.toNat < 0x80) (hm : b ∈ c) :
    c = [b] := by
  rcases h.cases with ⟨x, rfl, -, -⟩ | ⟨-, hc⟩
  · rw [List.mem_singleton.1 hm]
  · have := hc b hm
    omega

/-- A string is valid when the parts on both sides of an ASCII byte are. -/
theorem valid_split {b : UInt8} (hb0 : b ≠ 0) (hb : b.toNat < 0x80) (s t : Bytes) :
    utf8IsValidString (s ++ b :: t) = (utf8IsValidString s && utf8IsValidString t) := by
  have hsingle : utf8IsValidString [b] = true := valid_of_isChar ((isChar_single b).2 ⟨hb0, hb⟩)
  have hcons (l : Bytes) : utf8IsValidString (b :: l) = utf8IsValidString l := valid_append hsingle l
  by_cases hs : utf8IsValidString s = true
  · rw [valid_append hs, hcons, hs, Bool.true_and]
  · rw [Bool.eq_false_iff.2 hs, Bool.false_and, Bool.eq_false_iff]
    intro h
    apply hs
    clear hs
    -- The characters in front of `b` make up `s`.
    induction hn : s.length using Nat.strong_induction_on generalizing s with
    | _ n ih =>
      rcases valid_cases h with h0 | ⟨c, r, hcr, hc, hr⟩
      · simp at h0
      · have hpos := hc.length.1
        rcases List.append_eq_append_iff.1 hcr with ⟨x, rfl, hx⟩ | ⟨x, rfl, rfl⟩
        · cases x with
          | nil => exact valid_of_isChar (by simpa using hc)
          | cons y x =>
            have hy : y = b := by simp only [List.cons_append, List.cons.injEq] at hx; exact hx.1.symm
            have := hc.eq_of_ascii hb (by simp [hy])
            cases s with
            | nil => rfl
            | cons z s => simp at this
        · rw [valid_append (valid_of_isChar hc)]
          exact ih x.length (by rw [← hn, List.length_append]; omega) x hr rfl

/-- A map of the ASCII bytes among themselves that keeps NUL apart. -/
structure AsciiMap (f : UInt8 → UInt8) : Prop where
  high : ∀ b, 0x80 ≤ b.toNat → f b = b
  low : ∀ b, b.toNat < 0x80 → (f b).toNat < 0x80
  zero : ∀ b, f b = 0 ↔ b = 0

theorem isChar_map {f : UInt8 → UInt8} (hf : AsciiMap f) (c : Bytes) : IsChar (c.map f) ↔ IsChar c := by
  have hhigh (h : ∀ b ∈ c, 0x80 ≤ b.toNat) : c.map f = c :=
    (List.map_congr_left fun b hb => hf.high b (h b hb)).trans (List.map_id c)
  constructor
  · intro h
    rcases h.cases with ⟨b, hb, h0, hlt⟩ | ⟨-, hc⟩
    · obtain ⟨b', rfl, rfl⟩ := List.map_eq_singleton_iff.1 hb
      refine (isChar_single b').2 ⟨fun h => h0 ((hf.zero b').2 h), Nat.lt_of_not_le fun hle => ?_⟩
      rw [hf.high b' hle] at hlt
      omega
    · have hc' : ∀ b ∈ c, 0x80 ≤ b.toNat := fun b hb => Nat.le_of_not_lt fun hlt => by
        have h1 := hc (f b) (List.mem_map_of_mem hb)
        have h2 := hf.low b hlt
        omega
      rwa [hhigh hc'] at h
  · intro h
    rcases h.cases with ⟨b, rfl, h0, hlt⟩ | ⟨-, hc⟩
    · exact (isChar_single _).2 ⟨fun h => h0 ((hf.zero b).1 h), hf.low b hlt⟩
    · rwa [hhigh hc]

theorem valid_map {f : UInt8 → UInt8} (hf : AsciiMap f) (s : Bytes) :
    utf8IsValidString (s.map f) = utf8IsValidString s := by
  rw [Bool.eq_iff_iff, valid_iff, valid_iff]
  constructor
  · rintro ⟨cs, hcs, hall⟩
    induction cs generalizing s with
    | nil =>
      rw [List.map_eq_nil_iff.1 hcs.symm]
      exact Tiled.nil _
    | cons c cs ih =>
      rw [List.flatten_cons, eq_comm, List.map_eq_append_iff] at hcs
      obtain ⟨c', r, rfl, rfl, hr⟩ := hcs
      exact Tiled.cons ((isChar_map hf c').1 (hall _ List.mem_cons_self))
        (ih r hr.symm fun d hd => hall d (List.mem_cons_of_mem _ hd))
  · rintro ⟨cs, rfl, hall⟩
    refine ⟨cs.map (List.map f), by rw [List.map_flatten], fun c hc => ?_⟩
    obtain ⟨d, hd, rfl⟩ := List.mem_map.1 hc
    exact (isChar_map hf d).2 (hall d hd)

/-- A valid string may be cut wherever no continuation byte follows. -/
theorem valid_take {s : Bytes} (h : utf8IsValidString s = true) (n : Nat) :
    utf8IsValidString (s.take n) = !isContinuation (byteAt s n) := by
  induction hs : s.length using Nat.strong_induction_on generalizing s n with
  | _ l ih =>
    rcases valid_cases h with rfl | ⟨c, r, rfl, hc, hr⟩
    · have h0 : byteAt [] n = 0 := by simp [byteAt]
      rw [List.take_nil, h0]
      rfl
    · have hpos := hc.length.1
      rcases Nat.lt_or_ge n c.length with hn | hn
      · rw [List.take_append_of_le_length hn.le, byteAt_append hn]
        cases n with
        | zero => rw [List.take_zero, hc.head]; rfl
        | succ n =>
          have hmem : byteAt c (n + 1) ∈ c.tail := by
            rw [byteAt, List.getD_eq_getElem?_getD, List.getElem?_eq_getElem hn, Option.getD_some]
            refine List.mem_iff_getElem.2 ⟨n, by rw [List.length_tail]; omega, ?_⟩
            rw [List.getElem_tail]
          rw [hc.tail _ hmem, Bool.not_true, Bool.eq_false_iff]
          -- The first byte asks for more bytes than are left.
          intro ht
          rcases valid_cases ht with h0 | ⟨d, e, hde, hd, -⟩
          · have := congrArg List.length h0
            simp only [List.length_take, List.length_nil] at this
            omega
          · have h1 : byteAt d 0 = byteAt c 0 := by
              rw [← byteAt_append hd.length.1 e, ← hde, ← byteAt_append (t := c.drop (n + 1)) (i := 0),
                List.take_append_drop]
              rw [List.length_take]
              omega
            have h2 := congrArg List.length hde
            have h3 := hd.byteLength
            rw [h1, hc.byteLength] at h3
            simp only [List.length_take, List.length_append] at h2
            omega
      · rw [List.take_append, List.take_of_length_le hn, valid_append (valid_of_isChar hc),
          ih r.length (by rw [← hs, List.length_append]; omega) hr _ rfl]
        simp only [byteAt, List.getD_eq_getElem?_getD, List.getElem?_append_right hn]

/-! ## Characters that overlap -/

/-- Two characters of one text that overlap are the same. -/
theorem isChar_aligned {u w r u' c v : Bytes} (hw : IsChar w) (hc : IsChar c) (h : u ++ (w ++ r) = u' ++ (c ++ v))
    (hstart : u'.length < u.length + w.length) (hend : u.length < u'.length + c.length) : u = u' ∧ w = c := by
  -- A byte behind the first one of a character cannot begin another.
  have hinside {a x b y a' b' : Bytes} (hx : IsChar x) (hy : IsChar y) (h : a ++ (x ++ b) = a' ++ (y ++ b'))
      (hlt : a.length < a'.length) : a.length + x.length ≤ a'.length := by
    by_contra hover
    obtain ⟨t, rfl, ht⟩ | ⟨t, rfl, ht⟩ := List.append_eq_append_iff.1 h
    · rw [List.length_append] at hover
      obtain ⟨s, hs, hrest⟩ | ⟨s, rfl, hrest⟩ := List.append_eq_append_iff.1 ht
      · rw [hs, List.length_append] at hover
        omega
      · have hne : t ≠ [] := by
          rintro rfl
          rw [List.append_nil] at hlt
          omega
        obtain ⟨b₀, t, rfl⟩ := List.exists_cons_of_ne_nil hne
        have hsne : s ≠ [] := by
          rintro rfl
          rw [List.append_nil] at hover
          omega
        obtain ⟨d, s, rfl⟩ := List.exists_cons_of_ne_nil hsne
        have hmem : d ∈ (b₀ :: t ++ d :: s).tail := List.mem_append_right t List.mem_cons_self
        have hhead := hy.head
        obtain ⟨d', y, rfl⟩ := List.exists_cons_of_ne_nil hy.ne_nil
        have hd : d = d' := (List.cons.inj hrest).1.symm
        rw [byteAt_cons, ← hd, hx.tail d hmem] at hhead
        cases hhead
    · rw [List.length_append] at hlt
      omega
  rcases Nat.lt_trichotomy u.length u'.length with hlt | heq | hlt
  · have := hinside hw hc h hlt
    omega
  · obtain ⟨rfl, hrest⟩ := List.append_inj h heq
    have hlen : w.length = c.length := by
      rw [← hw.byteLength, ← hc.byteLength, ← byteAt_append hw.length.1 r, hrest, byteAt_append hc.length.1]
    exact ⟨rfl, (List.append_inj hrest hlen).1⟩
  · have := hinside hc hw h.symm hlt
    omega

/-! ## Removing from the end -/

/-- A valid string ends in a character. -/
theorem valid_cases_last {s : Bytes} (h : utf8IsValidString s = true) :
    s = [] ∨ ∃ r c, s = r ++ c ∧ utf8IsValidString r = true ∧ IsChar c := by
  obtain ⟨cs, rfl, hcs⟩ := (valid_iff s).1 h
  rcases List.eq_nil_or_concat cs with rfl | ⟨front, c, rfl⟩
  · exact .inl rfl
  · refine .inr ⟨front.flatten, c, by simp, (valid_iff _).2 ⟨front, rfl, fun d hd => hcs d ?_⟩, hcs c (by simp)⟩
    rw [List.concat_eq_append]
    exact List.mem_append_left [c] hd

/-- `utf8_remove_last_char` removes the last character. -/
theorem removeLastChar_append {c : Bytes} (hc : IsChar c) (r : Bytes) : utf8RemoveLastChar (r ++ c) = r := by
  obtain ⟨b, t, rfl⟩ := List.exists_cons_of_ne_nil hc.ne_nil
  have hb : isContinuation b = false := hc.head
  have ht : ∀ x ∈ t.reverse, isContinuation x = true := fun x hx => hc.tail x (List.mem_reverse.1 hx)
  unfold utf8RemoveLastChar
  rw [List.reverse_append, List.reverse_cons, List.append_assoc, List.dropWhile_append_of_pos ht, List.singleton_append,
    List.dropWhile_cons_of_neg (by rw [hb]; exact Bool.false_ne_true), List.tail_cons, List.reverse_reverse]

theorem valid_removeLastChar {s : Bytes} (h : utf8IsValidString s = true) :
    utf8IsValidString (utf8RemoveLastChar s) = true := by
  rcases valid_cases_last h with rfl | ⟨r, c, rfl, hr, hc⟩
  · rfl
  · rw [removeLastChar_append hc]
    exact hr

/-- A front that ends in a space is valid, if the string is. -/
theorem valid_of_space {r t : Bytes} (h : utf8IsValidString (r ++ 0x20 :: t) = true) :
    utf8IsValidString (r ++ [0x20]) = true := by
  rw [valid_split (by decide) (by decide), Bool.and_eq_true] at h
  rw [valid_split (by decide) (by decide), h.1, valid_nil]
  rfl

theorem valid_removeLastWord {s : Bytes} (h : utf8IsValidString s = true) :
    utf8IsValidString (utf8RemoveLastWord s) = true := by
  have hsuffix : (s.reverse.dropWhile (· == 0x20)).dropWhile (· != 0x20) <:+ s.reverse :=
    (List.dropWhile_suffix _).trans (List.dropWhile_suffix _)
  unfold utf8RemoveLastWord
  generalize hleft : (s.reverse.dropWhile (· == 0x20)).dropWhile (· != 0x20) = left at hsuffix
  cases left with
  | nil => rfl
  | cons c left =>
    have hspace : c = 0x20 := by
      have hhead := List.head?_dropWhile_not (· != 0x20) (s.reverse.dropWhile (· == 0x20))
      rw [hleft] at hhead
      simpa using hhead
    obtain ⟨t, ht⟩ := hsuffix
    have hs : s = left.reverse ++ 0x20 :: t.reverse := by
      rw [← List.reverse_reverse s, ← ht, hspace]
      simp
    rw [List.reverse_cons, hspace]
    exact valid_of_space (hs ▸ h)

/-! ## Cutting to a width -/

theorem utf8CharWidth_le (cp : Nat) : utf8CharWidth cp ≤ 2 := by
  unfold utf8CharWidth
  split_ifs <;> decide

theorem isPrefix_utf8TruncateLoop (maxWidth width : Nat) (cs : List Bytes) :
    utf8TruncateLoop maxWidth width cs <+: cs := by
  induction cs generalizing width with
  | nil => exact List.prefix_refl _
  | cons c cs ih =>
    simp only [utf8TruncateLoop]
    split
    · exact List.nil_prefix
    · exact List.cons_prefix_cons.2 ⟨rfl, ih _⟩

/-- `utf8_truncate` leaves the front of a string. -/
theorem isPrefix_utf8Truncate (s : Bytes) (maxWidth : Nat) : utf8Truncate s maxWidth <+: s := by
  obtain ⟨t, ht⟩ := isPrefix_utf8TruncateLoop maxWidth 0 (utf8Chars s)
  exact ⟨t.flatten, by rw [utf8Truncate, ← List.flatten_append, ht, utf8Chars, cut_flatten]⟩

theorem utf8Truncate_ne_nil {s : Bytes} (hs : s ≠ []) {maxWidth : Nat} (h : 2 ≤ maxWidth) :
    utf8Truncate s maxWidth ≠ [] := by
  obtain ⟨b, t, rfl⟩ := List.exists_cons_of_ne_nil hs
  have hw := utf8CharWidth_le (utf8Decode ((b :: t).take (blockLen (fun p => (utf8Decode p).2) (b :: t)))).1
  have hpos := @blockLen_pos _ (fun p => (utf8Decode p).2) (b :: t)
  rw [utf8Truncate, utf8Chars, cut_cons, utf8TruncateLoop, if_neg (by omega), List.flatten_cons]
  refine List.append_ne_nil_of_left_ne_nil (List.ne_nil_of_length_pos ?_) _
  rw [List.length_take, List.length_cons]
  omega

theorem utf8CharWidth_pos (cp : Nat) : 0 < utf8CharWidth cp := by
  unfold utf8CharWidth
  split_ifs <;> decide

theorem length_utf8TruncateLoop_le (maxWidth width : Nat) (cs : List Bytes) (h : width ≤ maxWidth) :
    width + (utf8TruncateLoop maxWidth width cs).length ≤ maxWidth := by
  induction cs generalizing width with
  | nil => exact h
  | cons c cs ih =>
    have hpos := utf8CharWidth_pos (utf8Decode c).1
    simp only [utf8TruncateLoop]
    split
    · exact h
    · have := ih (width + utf8CharWidth (utf8Decode c).1) (by omega)
      rw [List.length_cons]
      omega

/-- The pieces of a string cut off behind one of its pieces are the pieces up to there. -/
theorem utf8Chars_take (s : Bytes) (k : Nat) : utf8Chars ((utf8Chars s).take k).flatten = (utf8Chars s).take k := by
  apply cut_flatten_take
  intro l n hn
  have hdecode := utf8Decode_take ((Nat.le_max_right ..).trans hn)
    (Nat.lt_of_lt_of_le Nat.one_pos ((Nat.le_max_left ..).trans hn))
  exact congrArg (fun d => max 1 d.2) hdecode

theorem utf8Chars_utf8Truncate (s : Bytes) (maxWidth : Nat) :
    utf8Chars (utf8Truncate s maxWidth) = utf8TruncateLoop maxWidth 0 (utf8Chars s) := by
  have hkept := List.prefix_iff_eq_take.1 (isPrefix_utf8TruncateLoop maxWidth 0 (utf8Chars s))
  rw [utf8Truncate, hkept]
  exact utf8Chars_take s _

/-- What fits into some columns has no more characters than these. -/
theorem utf8Strlen_utf8Truncate_le (s : Bytes) (maxWidth : Nat) : utf8Strlen (utf8Truncate s maxWidth) ≤ maxWidth := by
  have hle := length_utf8TruncateLoop_le maxWidth 0 (utf8Chars s) (Nat.zero_le _)
  rw [utf8Strlen, utf8Chars_utf8Truncate]
  omega

end Tnt
