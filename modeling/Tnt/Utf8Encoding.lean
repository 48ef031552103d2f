import Tnt.Utf8
/-!
# UTF-8 as RFC 3629 has it (`utf8.c`)

Lean's `Char` is a Unicode scalar value and `String.utf8EncodeChar` its encoding. What
`utf8_is_valid_string` accepts are the encodings of characters other than NUL,
and `utf8_decode` reads the characters back (`utf8_is_rfc3629`).

In this module a pointer is an index into memory that ends with the NUL: reading behind it
gives `none`, and a function that reads there has no result.
-/
open BaseLib

namespace Tnt

/-! ## The functions on memory -/

/-- The loop over `p[i]` that returns early at a byte which `stops` it: whether it did. -/
def scanTail (mem : Bytes) (stops : UInt8 → Bool) (p : Nat) : List Nat → Option Bool
  | [] => some false
  | i :: is => do
    let b ← mem[p + i]?
    if stops b then return true
    scanTail mem stops p is

/-- `p[0]` to `p[len - 1]` -/
def readBytes (mem : Bytes) (p len : Nat) : Option Bytes := (List.range len).mapM fun i => mem[p + i]?

/-- `utf8_decode` -/
def utf8DecodeAt (mem : Bytes) (p : Nat) : Option (Nat × Nat) := do
  let b ← mem[p]?
  let len := utf8ByteLength b
  if ← scanTail mem (fun b => b == 0 || !isContinuation b) p (List.range' 1 (len - 1)) then return (b.toNat, 1)
  let bytes ← readBytes mem p len
  return (utf8Codepoint bytes len, len)

/-- A loop that calls `utf8_decode` up to the NUL: the codepoints. -/
def utf8DecodeAll (mem : Bytes) : Nat → Nat → Option (List Nat)
  | 0, _ => none
  | fuel + 1, p => do
    let b ← mem[p]?
    if b = 0 then return []
    let (cp, len) ← utf8DecodeAt mem p
    let cps ← utf8DecodeAll mem fuel (p + len)
    return cp :: cps

/-- `utf8_is_valid_sequence` -/
def utf8IsValidSequenceAt (mem : Bytes) (p len : Nat) : Option Bool := do
  if len = 0 ∨ len > 4 then return false
  let b ← mem[p]?
  if utf8ByteLength b ≠ len then return false
  if ← scanTail mem (fun b => !isContinuation b) p (List.range' 1 (len - 1)) then return false
  let bytes ← readBytes mem p len
  return utf8IsValidSequence bytes len

/-- `utf8_is_valid_string` -/
def utf8IsValidStringAt (mem : Bytes) : Nat → Nat → Option Bool
  | 0, _ => none
  | fuel + 1, p => do
    let b ← mem[p]?
    if b = 0 then return true
    let len := utf8ByteLength b
    if ← scanTail mem (· == 0) p (List.range' 1 (len - 1)) then return false
    if ← utf8IsValidSequenceAt mem p len then utf8IsValidStringAt mem fuel (p + len) else return false

/-! ## What they read -/

section Reads
variable {a r : Bytes} {stops : UInt8 → Bool}

theorem read_terminated {i : Nat} (h : i ≤ r.length) : (a ++ r ++ [0])[a.length + i]? = some (byteAt r i) := by
  rw [List.append_assoc, List.getElem?_append_right (Nat.le_add_right _ _), Nat.add_sub_cancel_left]
  rcases h.lt_or_eq with h | rfl
  · rw [List.getElem?_append_left h, List.getElem?_eq_getElem h]
    simp [byteAt, List.getD_eq_getElem?_getD, h]
  · simp [byteAt, List.getD_eq_getElem?_getD]

/-- A loop that the NUL stops does not go past it. -/
theorem scanTail_eq (hstop : stops 0 = true) (n k : Nat) (hk : k ≤ r.length) :
    scanTail (a ++ r ++ [0]) stops a.length (List.range' k n) =
      some (((List.range' k n).map (byteAt r)).any stops) := by
  induction n generalizing k with
  | zero => rfl
  | succ n ih =>
    rw [List.range'_succ, scanTail, read_terminated hk]
    simp only [Option.bind_eq_bind, Option.bind_some, List.map_cons, List.any_cons]
    by_cases hs : stops (byteAt r k) = true
    · rw [if_pos hs, hs, Bool.true_or]
      rfl
    · have hlt : k < r.length := by
        rcases hk.lt_or_eq with h | rfl
        · exact h
        · exfalso
          apply hs
          simpa [byteAt, List.getD_eq_getElem?_getD] using hstop
      rw [if_neg hs, Bool.eq_false_iff.2 hs, Bool.false_or]
      exact ih (k + 1) hlt

/-- Behind a loop that nothing stopped, all the bytes are there. -/
theorem length_of_unstopped (hstop : stops 0 = true) {n : Nat} (hr : r ≠ [])
    (h : (tailBytes r n).any stops = false) : n ≤ r.length := by
  by_contra hlt
  rw [List.any_eq_false] at h
  refine h 0 (List.mem_map.2 ⟨r.length, ?_, ?_⟩) hstop
  · have := List.length_pos_iff.2 hr
    rw [List.mem_range'_1]
    omega
  · simp [byteAt, List.getD_eq_getElem?_getD]

theorem readBytes_eq {n : Nat} (h : n ≤ r.length) : readBytes (a ++ r ++ [0]) a.length n = some (r.take n) := by
  have hread : ∀ is : List Nat, (∀ i ∈ is, i ≤ r.length) →
      is.mapM (fun i => (a ++ r ++ [0])[a.length + i]?) = some (is.map (byteAt r)) := by
    intro is his
    induction is with
    | nil => rfl
    | cons i is ih =>
      obtain ⟨hi, his⟩ := List.forall_mem_cons.1 his
      rw [List.mapM_cons, read_terminated hi, ih his]
      rfl
  rw [readBytes, hread _ fun i hi => (Nat.lt_of_lt_of_le (List.mem_range.1 hi) h).le]
  congr 1
  apply List.ext_getElem
  · simp [h]
  · intro i h1 h2
    simp only [List.length_map, List.length_range] at h1
    have hi : i < r.length := Nat.lt_of_lt_of_le h1 h
    simp [byteAt, List.getD_eq_getElem?_getD, hi]

/-- `utf8_decode` reads no further than the NUL. -/
theorem utf8DecodeAt_eq (hr : r ≠ []) : utf8DecodeAt (a ++ r ++ [0]) a.length = some (utf8Decode r) := by
  have hlen := List.length_pos_iff.2 hr
  have hhead : (a ++ r ++ [0])[a.length]? = some (byteAt r 0) := read_terminated hlen.le
  unfold utf8DecodeAt utf8Decode
  rw [hhead]
  simp only [Option.bind_eq_bind, Option.bind_some]
  rw [scanTail_eq rfl _ _ hlen, Option.bind_some]
  split
  · rename_i hbad
    rw [tailBytes, if_pos hbad]
    rfl
  · rename_i hgood
    rw [tailBytes, if_neg hgood]
    have hfits := length_of_unstopped rfl hr (Bool.eq_false_iff.2 hgood)
    rw [readBytes_eq hfits, Option.bind_some, utf8Codepoint_take (Nat.le_refl _)]
    rfl

theorem utf8IsValidSequenceAt_eq {len : Nat} (hr : r ≠ []) :
    utf8IsValidSequenceAt (a ++ r ++ [0]) a.length len = some (utf8IsValidSequence r len) := by
  have hlen := List.length_pos_iff.2 hr
  have hhead : (a ++ r ++ [0])[a.length]? = some (byteAt r 0) := read_terminated hlen.le
  unfold utf8IsValidSequenceAt
  by_cases hrange : len = 0 ∨ len > 4
  · rw [if_pos hrange, utf8IsValidSequence, if_pos hrange]
    rfl
  rw [if_neg hrange, hhead]
  simp only [Option.bind_eq_bind, Option.bind_some]
  by_cases hexpected : utf8ByteLength (byteAt r 0) ≠ len
  · rw [if_pos hexpected, utf8IsValidSequence, if_neg hrange, if_pos hexpected]
    rfl
  rw [if_neg hexpected, scanTail_eq rfl _ _ hlen]
  simp only [Option.bind_some]
  split
  · rename_i hbad
    rw [utf8IsValidSequence, if_neg hrange, if_neg hexpected, tailBytes, if_pos hbad]
    rfl
  · rename_i hgood
    have hfits := length_of_unstopped rfl hr (Bool.eq_false_iff.2 hgood)
    rw [readBytes_eq hfits, Option.bind_some, utf8IsValidSequence_take (by omega) (Nat.le_refl _)]
    rfl

/-- `utf8_is_valid_string`, from the first character to the others. -/
theorem utf8IsValidString_step (hr : r ≠ []) :
    utf8IsValidString r = (utf8CharIsValid r && utf8IsValidString (r.drop (utf8ByteLength (byteAt r 0)))) := by
  obtain ⟨b, t, rfl⟩ := List.exists_cons_of_ne_nil hr
  have hpos := (utf8ByteLength_pos (byteAt (b :: t) 0)).1
  have hblock : blockLen (fun p => utf8ByteLength (byteAt p 0)) (b :: t) = utf8ByteLength (byteAt (b :: t) 0) :=
    Nat.max_eq_right hpos
  rw [utf8IsValidString, utf8Sequences, cut_cons, hblock, List.all_cons]
  congr 1
  simp only [utf8CharIsValid, byteAt_take hpos, tailBytes_take (Nat.le_refl _),
    utf8IsValidSequence_take hpos (Nat.le_refl _)]

/-- The walk goes on behind a character that lies in the string. -/
theorem walk_on {n : Nat} (h : n ≤ r.length) :
    a ++ r ++ [0] = (a ++ r.take n) ++ r.drop n ++ [0] ∧ a.length + n = (a ++ r.take n).length := by
  refine ⟨by rw [List.append_assoc a (r.take n), List.take_append_drop], ?_⟩
  rw [List.length_append, List.length_take, Nat.min_eq_left h]

theorem head_ne_zero (hr : r ≠ []) (hnul : 0 ∉ r) : byteAt r 0 ≠ 0 := by
  obtain ⟨b, t, rfl⟩ := List.exists_cons_of_ne_nil hr
  exact fun h0 => hnul (h0 ▸ List.mem_cons_self)

theorem utf8IsValidStringAt_eq {fuel : Nat} (hfuel : r.length < fuel) (hnul : 0 ∉ r) :
    utf8IsValidStringAt (a ++ r ++ [0]) fuel a.length = some (utf8IsValidString r) := by
  induction fuel generalizing a r with
  | zero => omega
  | succ fuel ih =>
    unfold utf8IsValidStringAt
    have hhead : (a ++ r ++ [0])[a.length]? = some (byteAt r 0) := read_terminated (Nat.zero_le _)
    simp only [hhead, Option.bind_eq_bind, Option.bind_some]
    rcases eq_or_ne r [] with rfl | hne
    · rfl
    have hlen := List.length_pos_iff.2 hne
    rw [if_neg (head_ne_zero hne hnul), scanTail_eq rfl _ _ hlen, Option.bind_some, utf8IsValidString_step hne,
      utf8CharIsValid, tailBytes]
    have hpos := (utf8ByteLength_pos (byteAt r 0)).1
    generalize hn : utf8ByteLength (byteAt r 0) = n at hpos ⊢
    by_cases hshort : ((List.range' 1 (n - 1)).map (byteAt r)).any (· == 0) = true
    · rw [if_pos hshort, hshort]
      rfl
    rw [if_neg hshort, utf8IsValidSequenceAt_eq hne, Option.bind_some, Bool.eq_false_iff.2 hshort]
    cases hseq : utf8IsValidSequence r n with
    | false => rfl
    | true =>
      obtain ⟨hmem, hpos'⟩ := walk_on (a := a)
        (length_of_unstopped rfl hne (Bool.eq_false_iff.2 hshort))
      rw [if_pos rfl, hmem, hpos', ih _ fun h0 => hnul (List.mem_of_mem_drop h0)]
      · rfl
      · rw [List.length_drop]
        omega

theorem utf8Decode_length (hr : r ≠ []) : 1 ≤ (utf8Decode r).2 ∧ (utf8Decode r).2 ≤ r.length := by
  have hlen := List.length_pos_iff.2 hr
  simp only [utf8Decode]
  split
  · exact ⟨Nat.le_refl _, hlen⟩
  · rename_i hgood
    exact ⟨(utf8ByteLength_pos _).1,
      length_of_unstopped rfl hr (Bool.eq_false_iff.2 hgood)⟩

/-- The pieces of a string, from the first to the others. -/
theorem utf8Chars_step (hr : r ≠ []) :
    utf8Chars r = r.take (utf8Decode r).2 :: utf8Chars (r.drop (utf8Decode r).2) := by
  have hpos := (utf8Decode_length hr).1
  obtain ⟨b, t, rfl⟩ := List.exists_cons_of_ne_nil hr
  have hblock : blockLen (fun p => (utf8Decode p).2) (b :: t) = (utf8Decode (b :: t)).2 := Nat.max_eq_right hpos
  rw [utf8Chars, cut_cons, hblock]
  rfl

theorem utf8DecodeAll_eq {fuel : Nat} (hfuel : r.length < fuel) (hnul : 0 ∉ r) :
    utf8DecodeAll (a ++ r ++ [0]) fuel a.length = some ((utf8Chars r).map fun c => (utf8Decode c).1) := by
  induction fuel generalizing a r with
  | zero => omega
  | succ fuel ih =>
    unfold utf8DecodeAll
    have hhead : (a ++ r ++ [0])[a.length]? = some (byteAt r 0) := read_terminated (Nat.zero_le _)
    simp only [hhead, Option.bind_eq_bind, Option.bind_some]
    rcases eq_or_ne r [] with rfl | hne
    · rfl
    obtain ⟨hpos, hle⟩ := utf8Decode_length hne
    obtain ⟨hmem, hpos'⟩ := walk_on (a := a) hle
    rw [if_neg (head_ne_zero hne hnul), utf8DecodeAt_eq hne, Option.bind_some]
    rw [hmem, hpos', ih _ fun h0 => hnul (List.mem_of_mem_drop h0), utf8Chars_step hne, List.map_cons,
      utf8Decode_take (Nat.le_refl _) hpos]
    · rfl
    · rw [List.length_drop]
      omega

end Reads

/-! ## Encodings -/

theorem or_eq_add_of_lt {x y : Nat} (k : Nat) (hy : y < 2 ^ k) : x <<< k ||| y = x * 2 ^ k + y := by
  rw [Nat.shiftLeft_eq, Nat.mul_comm, ← Nat.two_pow_add_eq_or_of_lt hy]

section Codepoints
variable (a b c d : UInt8)

theorem and_low (n k : Nat) : n &&& (2 ^ k - 1) = n % 2 ^ k := Nat.and_two_pow_sub_one_eq_mod n k

theorem utf8Codepoint_one : utf8Codepoint [a] 1 = a.toNat := rfl

theorem utf8Codepoint_two : utf8Codepoint [a, b] 2 = a.toNat % 32 * 64 + b.toNat % 64 := by
  show (a.toNat &&& (2 ^ 5 - 1)) <<< 6 ||| (b.toNat &&& (2 ^ 6 - 1)) = _
  have hb : b.toNat % 2 ^ 6 < 2 ^ 6 := Nat.mod_lt _ (by decide)
  rw [and_low, and_low, or_eq_add_of_lt 6 hb]
  rfl

theorem utf8Codepoint_three :
    utf8Codepoint [a, b, c] 3 = a.toNat % 16 * 4096 + b.toNat % 64 * 64 + c.toNat % 64 := by
  show (a.toNat &&& (2 ^ 4 - 1)) <<< 12 ||| (b.toNat &&& (2 ^ 6 - 1)) <<< 6 ||| (c.toNat &&& (2 ^ 6 - 1)) = _
  have hb : b.toNat % 2 ^ 6 < 2 ^ 6 := Nat.mod_lt _ (by decide)
  have hc : c.toNat % 2 ^ 6 < 2 ^ 6 := Nat.mod_lt _ (by decide)
  rw [and_low, and_low, and_low, Nat.or_assoc, or_eq_add_of_lt 6 hc, or_eq_add_of_lt 12 (by omega)]
  omega

theorem utf8Codepoint_four : utf8Codepoint [a, b, c, d] 4 =
    a.toNat % 8 * 262144 + b.toNat % 64 * 4096 + c.toNat % 64 * 64 + d.toNat % 64 := by
  show (a.toNat &&& (2 ^ 3 - 1)) <<< 18 ||| (b.toNat &&& (2 ^ 6 - 1)) <<< 12 ||| (c.toNat &&& (2 ^ 6 - 1)) <<< 6 |||
    (d.toNat &&& (2 ^ 6 - 1)) = _
  have hb : b.toNat % 2 ^ 6 < 2 ^ 6 := Nat.mod_lt _ (by decide)
  have hc : c.toNat % 2 ^ 6 < 2 ^ 6 := Nat.mod_lt _ (by decide)
  have hd : d.toNat % 2 ^ 6 < 2 ^ 6 := Nat.mod_lt _ (by decide)
  rw [and_low, and_low, and_low, and_low, Nat.or_assoc, or_eq_add_of_lt 6 hd, Nat.or_assoc,
    or_eq_add_of_lt 12 (by omega), or_eq_add_of_lt 18 (by omega)]
  omega

/-- A continuation byte. -/
def IsTail (b : UInt8) : Prop := 0x80 ≤ b.toNat ∧ b.toNat < 0xC0

theorem utf8ByteLength_two : utf8ByteLength a = 2 ↔ 0xC0 ≤ a.toNat ∧ a.toNat < 0xE0 := by
  rw [utf8ByteLength_eq]
  split_ifs <;> omega

theorem utf8ByteLength_three : utf8ByteLength a = 3 ↔ 0xE0 ≤ a.toNat ∧ a.toNat < 0xF0 := by
  rw [utf8ByteLength_eq]
  split_ifs <;> omega

theorem utf8ByteLength_four : utf8ByteLength a = 4 ↔ 0xF0 ≤ a.toNat ∧ a.toNat < 0xF8 := by
  rw [utf8ByteLength_eq]
  split_ifs <;> omega

variable {a b c d}

theorem isChar_two : IsChar [a, b] ↔
    (0xC0 ≤ a.toNat ∧ a.toNat < 0xE0) ∧ IsTail b ∧ 0x80 ≤ utf8Codepoint [a, b] 2 := by
  have hcp := utf8Codepoint_two a b
  rw [← utf8ByteLength_two, IsTail, ← isContinuation_iff]
  simp [IsChar, utf8IsValidSequence, tailBytes, byteAt]
  intro _ _
  omega

theorem isChar_three : IsChar [a, b, c] ↔ (0xE0 ≤ a.toNat ∧ a.toNat < 0xF0) ∧ (IsTail b ∧ IsTail c) ∧
    0x800 ≤ utf8Codepoint [a, b, c] 3 ∧
      (utf8Codepoint [a, b, c] 3 < 0xD800 ∨ 0xDFFF < utf8Codepoint [a, b, c] 3) := by
  have hcp := utf8Codepoint_three a b c
  rw [← utf8ByteLength_three, IsTail, IsTail, ← isContinuation_iff, ← isContinuation_iff]
  simp [IsChar, utf8IsValidSequence, tailBytes, byteAt, List.range']
  intro _ _ _
  omega

theorem isChar_four : IsChar [a, b, c, d] ↔
    (0xF0 ≤ a.toNat ∧ a.toNat < 0xF8) ∧ (IsTail b ∧ IsTail c ∧ IsTail d) ∧
      0x10000 ≤ utf8Codepoint [a, b, c, d] 4 ∧ utf8Codepoint [a, b, c, d] 4 ≤ 0x10FFFF := by
  rw [← utf8ByteLength_four, IsTail, IsTail, IsTail, ← isContinuation_iff, ← isContinuation_iff, ← isContinuation_iff]
  simp [IsChar, utf8IsValidSequence, tailBytes, byteAt, List.range']

end Codepoints

/-- The encoding of a character but NUL is one of `utf8_is_valid_sequence`, for the same codepoint. -/
theorem isChar_utf8EncodeChar {ch : Char} (hch : ch ≠ '\x00') : IsChar (String.utf8EncodeChar ch) ∧
    utf8Codepoint (String.utf8EncodeChar ch) (String.utf8EncodeChar ch).length = ch.toNat := by
  have hvalid : ch.val.toNat.isValidChar := ch.valid
  have hpos : ch.val.toNat ≠ 0 := fun h0 => hch (Char.ext (UInt32.toNat_inj.1 h0))
  unfold Nat.isValidChar at hvalid
  have hbyte (n : Nat) (hn : n < 256) : (UInt8.ofNat n).toNat = n := by
    rw [UInt8.toNat_ofNat']
    exact Nat.mod_eq_of_lt hn
  simp only [String.utf8EncodeChar, Char.toNat]
  generalize ch.val.toNat = v at hvalid hpos ⊢
  split
  · have h0 := hbyte v (by omega)
    refine ⟨(isChar_single _).2 ⟨fun h => ?_, by omega⟩, h0⟩
    rw [h] at h0
    exact hpos h0.symm
  split
  · have h0 := hbyte (v / 64 % 0x20 + 0xC0) (by omega)
    have h1 := hbyte (v % 0x40 + 0x80) (by omega)
    have hcp : utf8Codepoint [UInt8.ofNat (v / 64 % 0x20 + 0xC0), UInt8.ofNat (v % 0x40 + 0x80)] 2 = v := by
      rw [utf8Codepoint_two, h0, h1]
      omega
    refine ⟨isChar_two.2 ?_, hcp⟩
    rw [hcp, IsTail, h0, h1]
    omega
  split
  · have h0 := hbyte (v / 4096 % 0x10 + 0xE0) (by omega)
    have h1 := hbyte (v / 64 % 0x40 + 0x80) (by omega)
    have h2 := hbyte (v % 0x40 + 0x80) (by omega)
    have hcp : utf8Codepoint [UInt8.ofNat (v / 4096 % 0x10 + 0xE0), UInt8.ofNat (v / 64 % 0x40 + 0x80),
        UInt8.ofNat (v % 0x40 + 0x80)] 3 = v := by
      rw [utf8Codepoint_three, h0, h1, h2]
      omega
    refine ⟨isChar_three.2 ?_, hcp⟩
    rw [hcp, IsTail, IsTail, h0, h1, h2]
    omega
  · have h0 := hbyte (v / 262144 % 0x08 + 0xF0) (by omega)
    have h1 := hbyte (v / 4096 % 0x40 + 0x80) (by omega)
    have h2 := hbyte (v / 64 % 0x40 + 0x80) (by omega)
    have h3 := hbyte (v % 0x40 + 0x80) (by omega)
    have hcp : utf8Codepoint [UInt8.ofNat (v / 262144 % 0x08 + 0xF0), UInt8.ofNat (v / 4096 % 0x40 + 0x80),
        UInt8.ofNat (v / 64 % 0x40 + 0x80), UInt8.ofNat (v % 0x40 + 0x80)] 4 = v := by
      rw [utf8Codepoint_four, h0, h1, h2, h3]
      omega
    refine ⟨isChar_four.2 ?_, hcp⟩
    rw [hcp, IsTail, IsTail, IsTail, h0, h1, h2, h3]
    omega

/-- A character of `utf8_is_valid_sequence` is the encoding of its codepoint. -/
theorem utf8EncodeChar_of_isChar {c : Bytes} (h : IsChar c) :
    ∃ ch : Char, ch ≠ '\x00' ∧ String.utf8EncodeChar ch = c := by
  have hbyte (n : Nat) (b : UInt8) (hn : n = b.toNat) : UInt8.ofNat n = b := by rw [hn, UInt8.ofNat_toNat]
  suffices ∃ v : Nat, v.isValidChar ∧ v ≠ 0 ∧ ∀ ch : Char, ch.val.toNat = v → String.utf8EncodeChar ch = c by
    obtain ⟨v, hv, hpos, henc⟩ := this
    have hval := toNat_charOfNat hv
    refine ⟨Char.ofNat v, fun h0 => hpos ?_, henc _ hval⟩
    rw [← hval, h0]
    rfl
  have hl := h.length
  refine ⟨utf8Codepoint c c.length, ?_⟩
  match c, hl with
  | [a], _ =>
    obtain ⟨ha, ha'⟩ := (isChar_single a).1 h
    have hpos : a.toNat ≠ 0 := fun h0 => ha (UInt8.toNat_inj.1 h0)
    rw [show ([a] : Bytes).length = 1 from rfl, utf8Codepoint_one]
    refine ⟨.inl (by omega), hpos, fun ch hv => ?_⟩
    simp only [String.utf8EncodeChar, hv]
    rw [if_pos (by omega), hbyte _ a rfl]
  | [a, b], _ =>
    obtain ⟨ha, hb, hmin⟩ := isChar_two.1 h
    have hcp := utf8Codepoint_two a b
    rw [show ([a, b] : Bytes).length = 2 from rfl]
    unfold IsTail at hb
    generalize utf8Codepoint [a, b] 2 = v at hmin hcp
    refine ⟨.inl (by omega), by omega, fun ch hv => ?_⟩
    simp only [String.utf8EncodeChar, hv]
    rw [if_neg (by omega), if_pos (by omega), hbyte _ a (by omega), hbyte _ b (by omega)]
  | [a, b, c], _ =>
    obtain ⟨ha, ⟨hb, hc⟩, hmin, hsurrogate⟩ := isChar_three.1 h
    have hcp := utf8Codepoint_three a b c
    rw [show ([a, b, c] : Bytes).length = 3 from rfl]
    unfold IsTail at hb hc
    generalize utf8Codepoint [a, b, c] 3 = v at hmin hsurrogate hcp
    refine ⟨?_, by omega, fun ch hv => ?_⟩
    · unfold Nat.isValidChar
      omega
    · simp only [String.utf8EncodeChar, hv]
      rw [if_neg (by omega), if_neg (by omega), if_pos (by omega), hbyte _ a (by omega), hbyte _ b (by omega),
        hbyte _ c (by omega)]
  | [a, b, c, d], _ =>
    obtain ⟨ha, ⟨hb, hc, hd⟩, hmin, hmax⟩ := isChar_four.1 h
    have hcp := utf8Codepoint_four a b c d
    rw [show ([a, b, c, d] : Bytes).length = 4 from rfl]
    unfold IsTail at hb hc hd
    generalize utf8Codepoint [a, b, c, d] 4 = v at hmin hmax hcp
    refine ⟨?_, by omega, fun ch hv => ?_⟩
    · unfold Nat.isValidChar
      omega
    · simp only [String.utf8EncodeChar, hv]
      rw [if_neg (by omega), if_neg (by omega), if_neg (by omega), hbyte _ a (by omega), hbyte _ b (by omega),
        hbyte _ c (by omega), hbyte _ d (by omega)]

/-! ## Strings of characters -/

/-- `utf8_decode` reads a character, whatever follows it. -/
theorem utf8Decode_isChar {c : Bytes} (h : IsChar c) (l : Bytes) :
    utf8Decode (c ++ l) = (utf8Codepoint c c.length, c.length) := by
  have hlen := h.byteLength
  have hle : (utf8Decode (c ++ l)).2 ≤ c.length := by
    simp only [utf8Decode, byteAt_append h.length.1, hlen]
    split
    · exact h.length.1
    · exact Nat.le_refl _
  have hgood : ¬ (c.tail.any fun b => b == 0 || !isContinuation b) = true := by
    rw [Bool.not_eq_true, List.any_eq_false]
    intro b hb
    have hne : b ≠ 0 := fun h0 => h.zero_notMem (h0 ▸ List.mem_of_mem_tail hb)
    simp [hne, h.tail b hb]
  rw [← utf8Decode_take hle h.length.1, List.take_left]
  simp only [utf8Decode, hlen, tailBytes_self]
  rw [if_neg hgood]

/-- The pieces of a concatenation of characters are the characters. -/
theorem utf8Chars_flatten {cs : List Bytes} (h : ∀ c ∈ cs, IsChar c) : utf8Chars cs.flatten = cs := by
  refine cut_flatten_eq (P := IsChar) (fun c l hc => ⟨hc.ne_nil, ?_⟩) cs h
  rw [blockLen, utf8Decode_isChar hc]
  exact Nat.max_eq_right hc.length.1

/-- The encoding of a text. -/
def utf8Encode (cs : List Char) : Bytes := cs.flatMap String.utf8EncodeChar

theorem valid_iff_utf8Encode (s : Bytes) :
    utf8IsValidString s = true ↔ ∃ cs : List Char, '\x00' ∉ cs ∧ utf8Encode cs = s := by
  rw [valid_iff]
  constructor
  · rintro ⟨pieces, rfl, hpieces⟩
    induction pieces with
    | nil => exact ⟨[], by simp, rfl⟩
    | cons c pieces ih =>
      obtain ⟨hc, hpieces⟩ := List.forall_mem_cons.1 hpieces
      obtain ⟨ch, hch, hbytes⟩ := utf8EncodeChar_of_isChar hc
      obtain ⟨cs, hcs, hrest⟩ := ih hpieces
      refine ⟨ch :: cs, by simp [hch.symm, hcs], ?_⟩
      rw [utf8Encode, List.flatMap_cons, hbytes, List.flatten_cons, ← hrest]
      rfl
  · rintro ⟨cs, hcs, rfl⟩
    refine ⟨cs.map String.utf8EncodeChar, (List.flatMap_def ..).symm, fun c hc => ?_⟩
    obtain ⟨ch, hch, rfl⟩ := List.mem_map.1 hc
    exact (isChar_utf8EncodeChar (ne_of_mem_of_not_mem hch hcs)).1

/-- Folding `utf8_decode` over the encoding of a text gives its codepoints. -/
theorem decode_utf8Encode {cs : List Char} (hcs : '\x00' ∉ cs) :
    (utf8Chars (utf8Encode cs)).map (fun c => (utf8Decode c).1) = cs.map Char.toNat := by
  have hchar (ch : Char) (hch : ch ∈ cs) := isChar_utf8EncodeChar (ne_of_mem_of_not_mem hch hcs)
  rw [utf8Encode, List.flatMap_def, utf8Chars_flatten, List.map_map]
  · apply List.map_congr_left
    intro ch hch
    obtain ⟨hc, hcp⟩ := hchar ch hch
    have hdecode := utf8Decode_isChar hc []
    rw [List.append_nil] at hdecode
    rw [Function.comp_apply, hdecode]
    exact hcp
  · intro c hc
    obtain ⟨ch, hch, rfl⟩ := List.mem_map.1 hc
    exact (hchar ch hch).1

/-- `utf8_is_valid_string` and `utf8_decode` read a string and its NUL only; the first accepts the
encodings of texts without NUL, and the second gives the one text that a string is the encoding of. -/
theorem utf8_is_rfc3629 (s : Bytes) (hnul : 0 ∉ s) :
    utf8IsValidStringAt (s ++ [0]) (s.length + 1) 0 = some (utf8IsValidString s) ∧
      (∃ cps, utf8DecodeAll (s ++ [0]) (s.length + 1) 0 = some cps) ∧
      (utf8IsValidString s = true ↔ ∃ cs : List Char, '\x00' ∉ cs ∧ utf8Encode cs = s) ∧
      ∀ cs : List Char, '\x00' ∉ cs → utf8Encode cs = s →
        utf8DecodeAll (s ++ [0]) (s.length + 1) 0 = some (cs.map Char.toNat) ∧
          ∀ cs' : List Char, '\x00' ∉ cs' → utf8Encode cs' = s → cs' = cs := by
  have hreads := utf8DecodeAll_eq (a := []) (Nat.lt_succ_self s.length) hnul
  refine ⟨utf8IsValidStringAt_eq (a := []) (Nat.lt_succ_self s.length) hnul, ⟨_, hreads⟩, valid_iff_utf8Encode s, ?_⟩
  intro cs hcs henc
  have hcodes := decode_utf8Encode hcs
  rw [henc] at hcodes
  refine ⟨hreads.trans (congrArg some hcodes), fun cs' hcs' henc' => ?_⟩
  -- Both are what the fold gives.
  have hcodes' := decode_utf8Encode hcs'
  rw [henc', hcodes] at hcodes'
  have hinj : Function.Injective Char.toNat := fun a b h => Char.ext (UInt32.toNat_inj.1 h)
  exact List.map_injective_iff.2 hinj hcodes'.symm

theorem utf8_is_rfc3629_greeting :
    utf8IsValidStringAt (lit "héllo" ++ [0]) ((lit "héllo").length + 1) 0 = some (utf8IsValidString (lit "héllo")) :=
  (utf8_is_rfc3629 (lit "héllo") (by decide)).1

end Tnt
