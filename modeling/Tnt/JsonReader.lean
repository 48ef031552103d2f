import Tnt.Lib.Json
import Tnt.JsonText
/-!
# What the reader makes of well-formed JSON

The functions of `json_text.c` on the text that a tree of the grammar renders, whatever follows it.
`parse_json_string` reads what the string stands for, where that has no NUL and
fits (`parseJsonString_quoted`); `skip_json_value` stops at the end of a value or behind
the blanks after it (`skipJsonValue_render`); and `tnt_json_get_string_field` sees the members
of the object and nothing else (`jsonGetStringField_render`).
-/
open BaseLib

namespace Tnt

open Json

/-! ## Code points -/

/-- Bits beside each other add up. -/
theorem or_eq_add {a b k : Nat} (h : b < 2 ^ k) : 2 ^ k * a ||| b = b + 2 ^ k * a := by
  rw [← Nat.two_pow_add_eq_or_of_lt h, Nat.add_comm]

/-- A codepoint is written in UTF-8. -/
theorem codepointBytes_eq {n : Nat} (h : n.isValidChar) : codepointBytes n = utf8 n := by
  have hrange : n < 0x110000 := by rcases h with h | h <;> omega
  have htail (k : Nat) : (0x80 ||| n >>> k &&& 0x3F : Nat) = n / 2 ^ k % 64 + 0x80 := by
    rw [Nat.shiftRight_eq_div_pow, show (0x3F : Nat) = 2 ^ 6 - 1 from rfl, Nat.and_two_pow_sub_one_eq_mod]
    exact or_eq_add (k := 7) (a := 1) (by omega)
  unfold utf8 String.utf8EncodeChar codepointBytes
  rw [toNat_charOfNat h]
  dsimp only
  simp only [htail, Nat.pow_zero, Nat.div_one]
  split
  · rfl
  split
  · rw [Nat.shiftRight_eq_div_pow, Nat.mod_eq_of_lt (b := 0x20) (by omega)]
    rw [show 0xC0 ||| n / 2 ^ 6 = n / 2 ^ 6 + 0xC0 from or_eq_add (k := 6) (a := 3) (by omega)]
    rfl
  split
  · rw [Nat.shiftRight_eq_div_pow, Nat.mod_eq_of_lt (b := 0x10) (by omega)]
    rw [show 0xE0 ||| n / 2 ^ 12 = n / 2 ^ 12 + 0xE0 from or_eq_add (k := 5) (a := 7) (by omega)]
    rfl
  · rw [Nat.shiftRight_eq_div_pow, Nat.mod_eq_of_lt (b := 0x08) (by omega)]
    rw [show 0xF0 ||| n / 2 ^ 18 = n / 2 ^ 18 + 0xF0 from or_eq_add (k := 4) (a := 15) (by omega)]
    rfl

/-- Only the codepoint 0 is written with a NUL. -/
theorem zero_mem_utf8 {n : Nat} (h : n.isValidChar) : 0 ∈ utf8 n ↔ n = 0 := by
  have hrange : n < 0x110000 := by rcases h with h | h <;> omega
  have hne {a b : Nat} (hb : 0 < b) (hab : a + b < 256) : (0 : UInt8) ≠ UInt8.ofNat (a + b) := by
    intro h
    have := congrArg UInt8.toNat h
    rw [UInt8.toNat_ofNat'] at this
    change 0 = (a + b) % 256 at this
    omega
  unfold utf8 String.utf8EncodeChar
  rw [toNat_charOfNat h]
  dsimp only
  split
  · constructor
    · intro h
      have := congrArg UInt8.toNat (List.mem_singleton.1 h)
      rw [UInt8.toNat_ofNat'] at this
      change 0 = n % 256 at this
      omega
    · rintro rfl
      exact List.mem_singleton.2 rfl
  · refine ⟨fun h => ?_, fun h => by omega⟩
    exfalso
    split at h
    · simp only [List.mem_cons, List.not_mem_nil, or_false] at h
      rcases h with h | h
      · exact hne (by decide) (by omega) h
      · exact hne (by decide) (by omega) h
    split at h
    · simp only [List.mem_cons, List.not_mem_nil, or_false] at h
      rcases h with h | h | h
      · exact hne (by decide) (by omega) h
      · exact hne (by decide) (by omega) h
      · exact hne (by decide) (by omega) h
    · simp only [List.mem_cons, List.not_mem_nil, or_false] at h
      rcases h with h | h | h | h
      · exact hne (by decide) (by omega) h
      · exact hne (by decide) (by omega) h
      · exact hne (by decide) (by omega) h
      · exact hne (by decide) (by omega) h

theorem hexValue_eq {c : UInt8} (h : isHex c = true) : hexValue c = some (hexVal c) ∧ hexVal c < 16 := by
  simp only [isHex, Bool.or_eq_true, Bool.and_eq_true, decide_eq_true_eq, UInt8.le_iff_toNat_le, UInt8.reduceToNat] at h
  unfold hexValue hexVal
  simp only [Bool.and_eq_true, decide_eq_true_eq, UInt8.le_iff_toNat_le, UInt8.reduceToNat]
  rcases h with (h | h) | h
  · rw [if_pos h, if_pos h.2]
    exact ⟨rfl, by omega⟩
  · rw [if_neg (by omega), if_neg (by omega), if_pos h, if_neg (by omega), if_pos h.2]
    exact ⟨congrArg some (by omega), by omega⟩
  · rw [if_neg (by omega), if_pos h, if_neg (by omega), if_neg (by omega)]
    exact ⟨congrArg some (by omega), by omega⟩

/-- `parse_hex4` reads a code unit. -/
theorem parseHex4_eq (u : CodeUnit) (p : Bytes) : parseHex4 (u.a :: u.b :: u.c :: u.d :: p) = some u.value := by
  obtain ⟨a, b, c, d, ha, hb, hc, hd⟩ := u
  obtain ⟨ha, -⟩ := hexValue_eq ha
  obtain ⟨hb, hb16⟩ := hexValue_eq hb
  obtain ⟨hc, hc16⟩ := hexValue_eq hc
  obtain ⟨hd, hd16⟩ := hexValue_eq hd
  unfold parseHex4
  simp only [byteAt, List.getD_cons_zero, List.getD_cons_succ, ha, hb, hc, hd, Option.bind_eq_bind, Option.bind_some,
    Option.pure_def, Nat.shiftLeft_eq, CodeUnit.value]
  generalize hexVal a = a at *
  generalize hexVal b = b at *
  generalize hexVal c = c at *
  generalize hexVal d = d at *
  have h₁ : a * 2 ^ 12 ||| b * 2 ^ 8 = 2 ^ 8 * (a * 16 + b) := by
    rw [Nat.mul_comm a, or_eq_add (by omega)]
    omega
  have h₂ : 2 ^ 8 * (a * 16 + b) ||| c * 2 ^ 4 = 2 ^ 4 * (a * 256 + b * 16 + c) := by
    rw [or_eq_add (by omega)]
    omega
  have h₃ : 2 ^ 4 * (a * 256 + b * 16 + c) ||| d = a * 4096 + b * 256 + c * 16 + d := by
    rw [or_eq_add (by omega)]
    omega
  rw [h₁, h₂, h₃]

theorem parseUnicodeEscape_eq (u : CodeUnit) (p : Bytes) :
    parseUnicodeEscape (u.a :: u.b :: u.c :: u.d :: p) =
      if u.IsHigh then
        if byteAt p 0 ≠ 0x5C ∨ byteAt p 1 ≠ 0x75 then none
        else
          (parseHex4 (p.drop 2)).bind fun low =>
            if low < 0xDC00 ∨ low > 0xDFFF then none
            else some (0x10000 + (u.value - 0xD800) <<< 10 + (low - 0xDC00), p.drop 6)
      else if u.IsLow then none
      else some (u.value, p) := by
  unfold parseUnicodeEscape
  rw [parseHex4_eq]
  rfl

/-- A high surrogate and a low one are a codepoint together. -/
theorem parseUnicodeEscape_pair {u : CodeUnit} (hu : u.IsHigh) (v : CodeUnit) (p : Bytes) :
    parseUnicodeEscape (u.a :: u.b :: u.c :: u.d :: 0x5C :: 0x75 :: v.a :: v.b :: v.c :: v.d :: p) =
      if v.IsLow then some (0x10000 + (u.value - 0xD800) * 0x400 + (v.value - 0xDC00), p) else none := by
  rw [parseUnicodeEscape_eq, if_pos hu, if_neg (by simp [byteAt])]
  show (parseHex4 (v.a :: v.b :: v.c :: v.d :: p)).bind _ = _
  rw [parseHex4_eq, Option.bind_some]
  by_cases hv : v.IsLow
  · rw [if_pos hv, if_neg (by unfold CodeUnit.IsLow at hv; omega), Nat.shiftLeft_eq]
    rfl
  · rw [if_neg hv, if_pos (by unfold CodeUnit.IsLow at hv; omega)]

theorem parseUnicodeEscape_single {u : CodeUnit} (hu : ¬ (u.IsHigh ∨ u.IsLow)) (p : Bytes) :
    parseUnicodeEscape (u.a :: u.b :: u.c :: u.d :: p) = some (u.value, p) := by
  rw [parseUnicodeEscape_eq, if_neg fun h => hu (.inl h), if_neg fun h => hu (.inr h)]

/-! ## Strings -/

/-- What the reader has written after a string that stands for `text`, with `out` in front of it. -/
def readOnto (outSize : Nat) (out : Bytes) (text : Option Bytes) : Option Bytes :=
  text.bind fun text => if 0 ∉ text ∧ out.length + text.length < outSize then some (out ++ text) else none

/-- What `parse_json_string` writes. -/
def readString (outSize : Nat) (cs : List Character) : Option Bytes := readOnto outSize [] (decode cs)

theorem readOnto_append (outSize : Nat) (out piece : Bytes) (text : Option Bytes) :
    readOnto outSize out (text.map (piece ++ ·)) =
      if 0 ∈ piece ∨ out.length + piece.length ≥ outSize then none else readOnto outSize (out ++ piece) text := by
  cases text with
  | none => simp [readOnto]
  | some text =>
    simp only [readOnto, Option.map_some, Option.bind_some, List.mem_append, List.length_append, not_or,
      List.append_assoc]
    split
    · next h => rw [if_neg (fun hn => hn.elim h.1.1 (by omega)), if_pos ⟨h.1.2, by omega⟩]
    · next h =>
      split
      · rfl
      · next hpiece =>
        rw [if_neg]
        rw [not_or] at hpiece
        exact fun htext => h ⟨⟨hpiece.1, htext.1⟩, by omega⟩

/-- One byte more, which is no NUL. -/
theorem appendByte_bind {outSize : Nat} {out : Bytes} {c : UInt8} (hc : c ≠ 0) {text : Option Bytes} {rest : Bytes}
    {k : Bytes → Option (Bytes × Bytes)}
    (hk : ∀ out, out.length < outSize → k out = (readOnto outSize out text).map (·, rest)) :
    (appendByte outSize out c).bind k = (readOnto outSize out (text.map (c :: ·))).map (·, rest) := by
  have happend := readOnto_append outSize out [c] text
  rw [show ([c] ++ · : Bytes → Bytes) = (c :: ·) from rfl] at happend
  rw [happend]
  unfold appendByte
  by_cases hfull : out.length + 1 ≥ outSize
  · rw [if_pos hfull, if_pos (.inr hfull)]
    rfl
  · rw [if_neg hfull, if_neg (fun h => h.elim (fun h => hc (List.mem_singleton.1 h).symm) hfull), Option.bind_some]
    exact hk _ (by rw [List.length_append, List.length_singleton]; omega)

/-- A codepoint more. -/
theorem appendDecodedCodepoint_bind {outSize : Nat} {out : Bytes} {n : Nat} (hn : n.isValidChar) {text : Option Bytes}
    {rest : Bytes} {k : Bytes → Option (Bytes × Bytes)}
    (hk : ∀ out, out.length < outSize → k out = (readOnto outSize out text).map (·, rest)) :
    (appendDecodedCodepoint outSize out n).bind k = (readOnto outSize out (text.map (utf8 n ++ ·))).map (·, rest) := by
  rw [readOnto_append, ← codepointBytes_eq hn]
  unfold appendDecodedCodepoint
  by_cases hzero : n = 0
  · rw [if_pos (.inl hzero), if_pos (.inl (by rw [codepointBytes_eq hn, zero_mem_utf8 hn]; exact hzero))]
    rfl
  rw [if_neg (by rcases hn with h | h <;> omega)]
  have hnul : 0 ∉ codepointBytes n := by rwa [codepointBytes_eq hn, zero_mem_utf8 hn]
  by_cases hfull : out.length + (codepointBytes n).length ≥ outSize
  · rw [if_pos hfull, if_pos (.inr hfull)]
    rfl
  · rw [if_neg hfull, if_neg (fun h => h.elim hnul hfull), Option.bind_some]
    exact hk _ (by rw [List.length_append]; omega)

theorem escapedByte_letter (e : Escape) : escapedByte e.letter = some e.byte := by cases e <;> rfl

theorem letter_ne (e : Escape) : e.letter ≠ 0x75 ∧ e.byte ≠ 0 := by cases e <;> decide

theorem isValidChar_single {u : CodeUnit} (hu : ¬ (u.IsHigh ∨ u.IsLow)) : u.value.isValidChar := by
  obtain ⟨a, b, c, d, ha, hb, hc, hd⟩ := u
  have := (hexValue_eq ha).2
  have := (hexValue_eq hb).2
  have := (hexValue_eq hc).2
  have := (hexValue_eq hd).2
  simp only [CodeUnit.IsHigh, CodeUnit.IsLow, CodeUnit.value, Nat.isValidChar] at hu ⊢
  omega

theorem isValidChar_pair {u v : CodeUnit} (hu : u.IsHigh) (hv : v.IsLow) :
    (0x10000 + (u.value - 0xD800) * 0x400 + (v.value - 0xDC00)).isValidChar := by
  unfold CodeUnit.IsHigh at hu
  unfold CodeUnit.IsLow at hv
  unfold Nat.isValidChar
  omega

section Loop
variable {outSize rounds : Nat} {out p : Bytes}

theorem parseJsonStringLoop_plain {c : UInt8} (h : 0x20 ≤ c ∧ c ≠ 0x22 ∧ c ≠ 0x5C) :
    parseJsonStringLoop outSize (rounds + 1) out (c :: p) =
      (appendByte outSize out c).bind (parseJsonStringLoop outSize rounds · p) := by
  show (if c = 0x22 then some (out, p) else if c < 0x20 then none
    else if c ≠ 0x5C then (appendByte outSize out c).bind (parseJsonStringLoop outSize rounds · p) else _) = _
  rw [if_neg h.2.1, if_neg (by rw [UInt8.not_lt]; exact h.1), if_pos h.2.2]

theorem parseJsonStringLoop_escape (e : Escape) :
    parseJsonStringLoop outSize (rounds + 1) out (0x5C :: e.letter :: p) =
      (appendByte outSize out e.byte).bind (parseJsonStringLoop outSize rounds · p) := by
  show (if e.letter = 0x75 then _ else (escapedByte e.letter).bind fun b =>
    (appendByte outSize out b).bind (parseJsonStringLoop outSize rounds · p)) = _
  rw [if_neg (letter_ne e).1, escapedByte_letter, Option.bind_some]

theorem parseJsonStringLoop_unicode :
    parseJsonStringLoop outSize (rounds + 1) out (0x5C :: 0x75 :: p) =
      (parseUnicodeEscape p).bind fun (cp, p) =>
        (appendDecodedCodepoint outSize out cp).bind (parseJsonStringLoop outSize rounds · p) := rfl

end Loop

/-- Behind a string that does not begin with a code unit there is none. -/
theorem no_unicode {cs : List Character} (h : ∀ v cs', cs = .unicode v :: cs' → False) (rest : Bytes) :
    byteAt (spell cs ++ 0x22 :: rest) 0 ≠ 0x5C ∨ byteAt (spell cs ++ 0x22 :: rest) 1 ≠ 0x75 := by
  cases cs with
  | nil => exact .inl (by simp [spell, byteAt])
  | cons ch cs =>
    cases ch with
    | plain c hc => exact .inl hc.2.2
    | escape e => exact .inr (letter_ne e).1
    | unicode v => exact absurd rfl (h v cs)

/-- The loop reads a string to its quote. -/
theorem parseJsonStringLoop_spell {outSize rounds : Nat} {out rest : Bytes} {cs : List Character}
    (hrounds : (spell cs).length < rounds) (hout : out.length < outSize) :
    parseJsonStringLoop outSize rounds out (spell cs ++ 0x22 :: rest) =
      (readOnto outSize out (decode cs)).map (·, rest) := by
  -- The loop and `decode` look at the same characters: one, or two for a surrogate pair.
  induction cs using decode.induct generalizing rounds out with
  | case1 =>
    obtain ⟨rounds, rfl⟩ := Nat.exists_eq_succ_of_ne_zero (Nat.ne_of_gt hrounds)
    simp [spell, parseJsonStringLoop, readOnto, decode, hout]
  | case2 c h cs ih =>
    obtain ⟨rounds, rfl⟩ := Nat.exists_eq_succ_of_ne_zero (Nat.ne_of_gt (Nat.zero_lt_of_lt hrounds))
    have hc : c ≠ 0 := by
      rintro rfl
      exact absurd h.1 (by decide)
    rw [spell_cons, Character.render, List.length_append, List.length_singleton] at hrounds
    show parseJsonStringLoop outSize (rounds + 1) out (c :: (spell cs ++ 0x22 :: rest)) = _
    rw [parseJsonStringLoop_plain h, decode]
    exact appendByte_bind hc fun out hout => ih (by omega) hout
  | case3 e cs ih =>
    obtain ⟨rounds, rfl⟩ := Nat.exists_eq_succ_of_ne_zero (Nat.ne_of_gt (Nat.zero_lt_of_lt hrounds))
    rw [spell_cons, Character.render, List.length_append, List.length_cons] at hrounds
    show parseJsonStringLoop outSize (rounds + 1) out (0x5C :: e.letter :: (spell cs ++ 0x22 :: rest)) = _
    rw [parseJsonStringLoop_escape, decode]
    exact appendByte_bind (letter_ne e).2 fun out hout => ih (by omega) hout
  | case4 u v cs hpair ih =>
    obtain ⟨rounds, rfl⟩ := Nat.exists_eq_succ_of_ne_zero (Nat.ne_of_gt (Nat.zero_lt_of_lt hrounds))
    rw [spell_cons, Character.render, List.length_append, List.length_cons, spell_cons, List.length_append] at hrounds
    show parseJsonStringLoop outSize (rounds + 1) out (0x5C :: 0x75 :: u.a :: u.b :: u.c :: u.d :: 0x5C :: 0x75 ::
      v.a :: v.b :: v.c :: v.d :: (spell cs ++ 0x22 :: rest)) = _
    rw [parseJsonStringLoop_unicode, parseUnicodeEscape_pair hpair.1, if_pos hpair.2, Option.bind_some, decode,
      if_pos hpair]
    exact appendDecodedCodepoint_bind (isValidChar_pair hpair.1 hpair.2) fun out hout => ih (by omega) hout
  | case5 u v cs hpair hlone =>
    obtain ⟨rounds, rfl⟩ := Nat.exists_eq_succ_of_ne_zero (Nat.ne_of_gt (Nat.zero_lt_of_lt hrounds))
    show parseJsonStringLoop outSize (rounds + 1) out (0x5C :: 0x75 :: u.a :: u.b :: u.c :: u.d :: 0x5C :: 0x75 ::
      v.a :: v.b :: v.c :: v.d :: (spell cs ++ 0x22 :: rest)) = _
    rw [parseJsonStringLoop_unicode, decode, if_neg hpair, if_pos hlone]
    rcases hlone with hu | hu
    · rw [parseUnicodeEscape_pair hu, if_neg fun hv => hpair ⟨hu, hv⟩]
      rfl
    · rw [parseUnicodeEscape_eq, if_neg (fun hh => absurd (hu.1.trans hh.2) (by decide)), if_pos hu]
      rfl
  | case6 u v cs hpair hlone ih =>
    obtain ⟨rounds, rfl⟩ := Nat.exists_eq_succ_of_ne_zero (Nat.ne_of_gt (Nat.zero_lt_of_lt hrounds))
    rw [spell_cons, Character.render, List.length_append, List.length_cons] at hrounds
    show parseJsonStringLoop outSize (rounds + 1) out (0x5C :: 0x75 :: u.a :: u.b :: u.c :: u.d ::
      (spell (.unicode v :: cs) ++ 0x22 :: rest)) = _
    rw [parseJsonStringLoop_unicode, parseUnicodeEscape_single hlone, Option.bind_some, decode, if_neg hpair,
      if_neg hlone]
    exact appendDecodedCodepoint_bind (isValidChar_single hlone) fun out hout => ih (by omega) hout
  | case7 u cs hnext hlone =>
    obtain ⟨rounds, rfl⟩ := Nat.exists_eq_succ_of_ne_zero (Nat.ne_of_gt (Nat.zero_lt_of_lt hrounds))
    show parseJsonStringLoop outSize (rounds + 1) out (0x5C :: 0x75 :: u.a :: u.b :: u.c :: u.d ::
      (spell cs ++ 0x22 :: rest)) = _
    rw [parseJsonStringLoop_unicode, decode, if_pos hlone, parseUnicodeEscape_eq]
    · by_cases hu : u.IsHigh
      · rw [if_pos hu, if_pos (no_unicode hnext rest)]
        rfl
      · rw [if_neg hu, if_pos (hlone.resolve_left hu)]
        rfl
    · exact hnext
  | case8 u cs hnext hlone ih =>
    obtain ⟨rounds, rfl⟩ := Nat.exists_eq_succ_of_ne_zero (Nat.ne_of_gt (Nat.zero_lt_of_lt hrounds))
    rw [spell_cons, Character.render, List.length_append, List.length_cons] at hrounds
    show parseJsonStringLoop outSize (rounds + 1) out (0x5C :: 0x75 :: u.a :: u.b :: u.c :: u.d ::
      (spell cs ++ 0x22 :: rest)) = _
    rw [parseJsonStringLoop_unicode, parseUnicodeEscape_single hlone, Option.bind_some, decode, if_neg hlone]
    · exact appendDecodedCodepoint_bind (isValidChar_single hlone) fun out hout => ih (by omega) hout
    · exact hnext

/-- `parse_json_string` reads what the string stands for, where that has no NUL and fits. -/
theorem parseJsonString_quoted {outSize : Nat} (hsize : 0 < outSize) (cs : List Character) (rest : Bytes) :
    parseJsonString outSize (quoted cs ++ rest) = (readString outSize cs).map (·, rest) := by
  show parseJsonString outSize (0x22 :: (spell cs ++ [0x22]) ++ rest) = _
  rw [List.cons_append, List.append_assoc, List.singleton_append]
  unfold parseJsonString
  dsimp only
  rw [if_neg (fun h => h.elim (fun h => h rfl) hsize.ne')]
  exact parseJsonStringLoop_spell (by rw [List.length_append]; omega) hsize

theorem skipJsonStringLoop_spell {rounds : Nat} {cs : List Character} (rest : Bytes) (h : (spell cs).length < rounds) :
    skipJsonStringLoop rounds (spell cs ++ 0x22 :: rest) = some rest := by
  induction cs generalizing rounds with
  | nil =>
    obtain ⟨rounds, rfl⟩ := Nat.exists_eq_succ_of_ne_zero (Nat.ne_of_gt h)
    rfl
  | cons ch cs ih =>
    obtain ⟨rounds, rfl⟩ := Nat.exists_eq_succ_of_ne_zero (Nat.ne_of_gt (Nat.zero_lt_of_lt h))
    rw [spell_cons, List.length_append] at h
    cases ch with
    | plain c hc =>
      rw [Character.render, List.length_singleton] at h
      show (if c = 0x22 then _ else if c < 0x20 then none else if c = 0x5C then _
        else skipJsonStringLoop rounds (spell cs ++ 0x22 :: rest)) = _
      rw [if_neg hc.2.1, if_neg (by rw [UInt8.not_lt]; exact hc.1), if_neg hc.2.2]
      exact ih (by omega)
    | escape e =>
      rw [Character.render, List.length_cons] at h
      show (if e.letter = 0x75 then _ else skipJsonStringLoop rounds (spell cs ++ 0x22 :: rest)) = _
      rw [if_neg (letter_ne e).1]
      exact ih (by omega)
    | unicode u =>
      rw [Character.render, List.length_cons] at h
      show (parseHex4 (u.a :: u.b :: u.c :: u.d :: (spell cs ++ 0x22 :: rest))).bind (fun _ =>
        skipJsonStringLoop rounds (spell cs ++ 0x22 :: rest)) = _
      rw [parseHex4_eq, Option.bind_some]
      exact ih (by omega)

/-- `skip_json_string` stops behind the string. -/
theorem skipJsonString_quoted (cs : List Character) (rest : Bytes) :
    skipJsonString (quoted cs ++ rest) = some rest := by
  show skipJsonString (0x22 :: (spell cs ++ [0x22]) ++ rest) = _
  rw [List.cons_append, List.append_assoc, List.singleton_append]
  unfold skipJsonString
  dsimp only
  rw [if_neg (by decide)]
  exact skipJsonStringLoop_spell rest (by rw [List.length_append]; omega)

/-! ## Values -/

/-- A blank of JSON is one of C. -/
theorem isSpace_of_isBlank {c : UInt8} (h : isBlank c = true) : isSpace c = true := by
  rcases isBlank_cases h with rfl | rfl | rfl | rfl <;> rfl

theorem skipWs_blanks (b : Blanks) (rest : Bytes) : skipWs (b.bytes ++ rest) = skipWs rest :=
  List.dropWhile_append_of_pos fun c hc => isSpace_of_isBlank (b.blank c hc)

theorem skipWs_cons {c : UInt8} (h : isSpace c = false) (rest : Bytes) : skipWs (c :: rest) = c :: rest :=
  List.dropWhile_cons_of_neg (by rw [h]; exact Bool.false_ne_true)

/-- What is no quote and no bracket. -/
def isPlain (c : UInt8) : Bool := c != 0x22 && c != 0x7B && c != 0x5B && c != 0x7D && c != 0x5D

theorem isPlain_of_isBlank {c : UInt8} (h : isBlank c = true) : isPlain c = true := by
  rcases isBlank_cases h with rfl | rfl | rfl | rfl <;> rfl

theorem isPlain_of_isScalarByte {c : UInt8} (h : isScalarByte c = true) : isPlain c = true := by
  simp only [isPlain, Bool.and_eq_true, bne_iff_ne]
  refine ⟨⟨⟨⟨?_, ?_⟩, ?_⟩, ?_⟩, ?_⟩ <;> exact ne_of_isScalarByte h rfl

/-- What is passed over stands in front. -/
theorem skipJsonStringLoop_suffix {rounds : Nat} {p q : Bytes} (h : skipJsonStringLoop rounds p = some q) :
    q <:+ p := by
  induction rounds generalizing p with
  | zero => cases h
  | succ rounds ih =>
    cases p with
    | nil => cases h
    | cons c p =>
      replace h : (if c = 0x22 then some p else if c < 0x20 then none else if c = 0x5C then _
        else skipJsonStringLoop rounds p) = some q := h
      split at h
      · cases h
        exact List.suffix_cons c q
      split at h
      · cases h
      split at h
      · cases p with
        | nil => cases h
        | cons esc p =>
          replace h : (if esc = 0x75 then (parseHex4 p).bind fun _ => skipJsonStringLoop rounds (p.drop 4)
            else skipJsonStringLoop rounds p) = some q := h
          split at h
          · obtain ⟨_, _, h⟩ := Option.bind_eq_some_iff.1 h
            exact (ih h).trans ((List.drop_suffix 4 p).trans (List.suffix_append [c, esc] p))
          · exact (ih h).trans (List.suffix_append [c, esc] p)
      · exact (ih h).trans (List.suffix_cons c p)

theorem skipJsonString_suffix {p q : Bytes} (h : skipJsonString p = some q) : q <:+ p := by
  cases p with
  | nil => cases h
  | cons c p =>
    unfold skipJsonString at h
    dsimp only at h
    split at h
    · cases h
    · exact (skipJsonStringLoop_suffix h).trans (List.suffix_cons c p)

/-- The depth behind a byte. -/
def depthAfter (depth : Int) (c : UInt8) : Int :=
  if c = 0x7B ∨ c = 0x5B then depth + 1 else if c = 0x7D ∨ c = 0x5D then depth - 1 else depth

/-- A round of `skip_json_value` behind the string that it may begin with, `k` being the rounds after it. -/
def roundBehind (k : Int → Bytes → Option Bytes) (depth : Int) : Bytes → Option Bytes
  | [] => none
  | c :: p => if depthAfter depth c > 0 then k (depthAfter depth c) p else some p

theorem skipNested_succ (r : Nat) (depth : Int) (p : Bytes) :
    skipNested (r + 1) depth p =
      (if byteAt p 0 = 0x22 then skipJsonString p else some p).bind (roundBehind (skipNested r) depth) := by
  rw [skipNested]
  rfl

/-- A string at the start of a round is passed. -/
theorem skipString_suffix {p q : Bytes} (h : (if byteAt p 0 = 0x22 then skipJsonString p else some p) = some q) :
    q <:+ p := by
  split at h
  · exact skipJsonString_suffix h
  · cases h
    exact List.suffix_rfl

/-- More rounds than there are bytes make no difference. -/
theorem skipNested_rounds {r r' : Nat} {depth : Int} {p : Bytes} (hr : p.length < r) (hr' : p.length < r') :
    skipNested r depth p = skipNested r' depth p := by
  induction r generalizing r' depth p with
  | zero => omega
  | succ r ih =>
    obtain ⟨r', rfl⟩ := Nat.exists_eq_succ_of_ne_zero (Nat.ne_of_gt (Nat.zero_lt_of_lt hr'))
    rw [skipNested_succ, skipNested_succ]
    cases hq : (if byteAt p 0 = 0x22 then skipJsonString p else some p) with
    | none => rfl
    | some q =>
      have hlen := (skipString_suffix hq).length_le
      cases q with
      | nil => rfl
      | cons c q =>
        rw [List.length_cons] at hlen
        have hrest := @ih r' (depthAfter depth c) q (by omega) (by omega)
        rw [Option.bind_some, Option.bind_some, roundBehind, roundBehind, hrest]

/-- The loop over an object or an array, with as many rounds as it can need. -/
def skipInside (depth : Int) (p : Bytes) : Option Bytes := skipNested (p.length + 1) depth p

theorem skipInside_eq (depth : Int) (p : Bytes) :
    skipInside depth p =
      (if byteAt p 0 = 0x22 then skipJsonString p else some p).bind (roundBehind skipInside depth) := by
  unfold skipInside
  rw [skipNested_succ]
  cases hq : (if byteAt p 0 = 0x22 then skipJsonString p else some p) with
  | none => rfl
  | some q =>
    have hlen := (skipString_suffix hq).length_le
    cases q with
    | nil => rfl
    | cons c q =>
      rw [List.length_cons] at hlen
      rw [Option.bind_some, Option.bind_some, roundBehind, roundBehind,
        skipNested_rounds (by omega) (Nat.lt_succ_self _)]

theorem skipInside_cons {depth : Int} {c : UInt8} (h : c ≠ 0x22) (p : Bytes) :
    skipInside depth (c :: p) = if depthAfter depth c > 0 then skipInside (depthAfter depth c) p else some p := by
  rw [skipInside_eq, if_neg (show byteAt (c :: p) 0 ≠ 0x22 from h), Option.bind_some, roundBehind]

/-- Inside, a byte that is no quote and no bracket is passed. -/
theorem skipInside_plain {depth : Int} (hd : 0 < depth) {t : Bytes} (ht : ∀ c ∈ t, isPlain c = true) (p : Bytes) :
    skipInside depth (t ++ p) = skipInside depth p := by
  induction t with
  | nil => rfl
  | cons c t ih =>
    have hc := ht c List.mem_cons_self
    simp only [isPlain, Bool.and_eq_true, bne_iff_ne] at hc
    have hdepth : depthAfter depth c = depth := by simp [depthAfter, hc]
    rw [List.cons_append, skipInside_cons hc.1.1.1.1, hdepth, if_pos hd]
    exact ih fun c hm => ht c (List.mem_cons_of_mem _ hm)

/-- So is a string, where the byte behind it is no quote. -/
theorem skipInside_quoted (depth : Int) (cs : List Character) {p : Bytes} (hp : byteAt p 0 ≠ 0x22) :
    skipInside depth (quoted cs ++ p) = skipInside depth p := by
  rw [skipInside_eq depth (quoted cs ++ p), if_pos (show byteAt (quoted cs ++ p) 0 = 0x22 from rfl),
    skipJsonString_quoted, skipInside_eq depth p, if_neg hp]

theorem skipInside_blanks {depth : Int} (hd : 0 < depth) (b : Blanks) (p : Bytes) :
    skipInside depth (b.bytes ++ p) = skipInside depth p :=
  skipInside_plain hd (fun c hc => isPlain_of_isBlank (b.blank c hc)) p

/-- The byte behind blanks is no quote, where none follows them. -/
theorem byteAt_blanks {p : Bytes} (hp : byteAt p 0 ≠ 0x22) (b : Blanks) : byteAt (b.bytes ++ p) 0 ≠ 0x22 := by
  obtain ⟨bytes, hb⟩ := b
  cases bytes with
  | nil => exact hp
  | cons c t =>
    have := isPlain_of_isBlank (hb c List.mem_cons_self)
    intro h
    rw [show c = 0x22 from h] at this
    exact absurd this (by decide)

/-- An opening bracket, what is passed inside and the closing bracket are passed. -/
theorem skipInside_bracketed {depth : Int} (hd : 0 ≤ depth) {l r : UInt8} (hl : l = 0x5B ∨ l = 0x7B)
    (hr : r = 0x5D ∨ r = 0x7D)
    (blanks : Blanks) {t p : Bytes} (ht : skipInside (depth + 1) (t ++ r :: p) = skipInside (depth + 1) (r :: p)) :
    skipInside depth (l :: blanks.bytes ++ t ++ [r] ++ p) = if depth > 0 then skipInside depth p else some p := by
  have hopen : l ≠ 0x22 ∧ depthAfter depth l = depth + 1 := by
    rcases hl with rfl | rfl <;> exact ⟨by decide, rfl⟩
  have hclose : r ≠ 0x22 ∧ depthAfter (depth + 1) r = depth := by
    rcases hr with rfl | rfl <;> exact ⟨by decide, Int.add_sub_cancel depth 1⟩
  simp only [List.cons_append, List.append_assoc, List.nil_append]
  rw [skipInside_cons hopen.1, hopen.2, if_pos (by omega), skipInside_blanks (by omega), ht,
    skipInside_cons hclose.1, hclose.2]

/-- Parts with commas between them are passed, if each of them is. -/
theorem skipInside_commas {depth : Int} (hd : 0 < depth) {parts : List Bytes}
    (h : ∀ t ∈ parts, ∀ p, byteAt p 0 ≠ 0x22 → skipInside depth (t ++ p) = skipInside depth p)
    {p : Bytes} (hp : byteAt p 0 ≠ 0x22) : skipInside depth (commas parts ++ p) = skipInside depth p := by
  have hmore {parts : List Bytes}
      (h : ∀ t ∈ parts, ∀ p, byteAt p 0 ≠ 0x22 → skipInside depth (t ++ p) = skipInside depth p) :
      byteAt (parts.flatMap (0x2C :: ·) ++ p) 0 ≠ 0x22 ∧
        skipInside depth (parts.flatMap (0x2C :: ·) ++ p) = skipInside depth p := by
    induction parts with
    | nil => exact ⟨hp, rfl⟩
    | cons t parts ih =>
      obtain ⟨hnext, hrest⟩ := ih fun t ht => h t (List.mem_cons_of_mem _ ht)
      rw [List.flatMap_cons, List.cons_append, List.cons_append, List.append_assoc]
      refine ⟨by simp [byteAt], ?_⟩
      rw [← List.singleton_append, skipInside_plain hd (List.all_eq_true.1 rfl), h t List.mem_cons_self _ hnext, hrest]
  cases parts with
  | nil => rfl
  | cons t parts =>
    obtain ⟨hnext, hrest⟩ := hmore fun t ht => h t (List.mem_cons_of_mem _ ht)
    rw [commas, List.append_assoc, h t List.mem_cons_self _ hnext, hrest]

mutual

/-- Inside, a value is passed, where the byte behind it is no quote. -/
theorem skipInside_value (v : Value) {depth : Int} (hd : 0 < depth) {p : Bytes} (hp : byteAt p 0 ≠ 0x22) :
    skipInside depth (v.render ++ p) = skipInside depth p := by
  match v with
  | .scalar s =>
    exact skipInside_plain hd (fun c hc => isPlain_of_isScalarByte (s.isScalarByte_of_mem hc)) p
  | .string cs => exact skipInside_quoted depth cs hp
  | .array blanks elements =>
    refine (skipInside_bracketed (Int.le_of_lt hd) (.inl rfl) (.inl rfl) blanks ?_).trans (if_pos hd)
    exact skipInside_commas (by omega) (skipInside_elements elements (by omega)) (by simp [byteAt])
  | .object blanks members =>
    refine (skipInside_bracketed (Int.le_of_lt hd) (.inr rfl) (.inr rfl) blanks ?_).trans (if_pos hd)
    exact skipInside_commas (by omega) (skipInside_members members (by omega)) (by simp [byteAt])

theorem skipInside_element (element : Element) {depth : Int} (hd : 0 < depth) {p : Bytes} (hp : byteAt p 0 ≠ 0x22) :
    skipInside depth (element.render ++ p) = skipInside depth p := by
  match element with
  | ⟨before, value, after⟩ =>
    simp only [Element.render, List.append_assoc]
    rw [skipInside_blanks hd, skipInside_value value hd (byteAt_blanks hp after), skipInside_blanks hd]

theorem skipInside_member (m : Member) {depth : Int} (hd : 0 < depth) {p : Bytes} (hp : byteAt p 0 ≠ 0x22) :
    skipInside depth (m.render ++ p) = skipInside depth p := by
  match m with
  | ⟨before, name, afterName, beforeValue, value, after⟩ =>
    simp only [Member.render, List.append_assoc, List.cons_append]
    rw [skipInside_blanks hd, skipInside_quoted depth name (byteAt_blanks (by simp [byteAt]) afterName),
      skipInside_blanks hd]
    rw [← List.singleton_append, skipInside_plain hd (List.all_eq_true.1 rfl), skipInside_blanks hd,
      skipInside_value value hd (byteAt_blanks hp after), skipInside_blanks hd]

theorem skipInside_elements (elements : List Element) {depth : Int} (hd : 0 < depth) :
    ∀ t ∈ renderElements elements, ∀ p, byteAt p 0 ≠ 0x22 → skipInside depth (t ++ p) = skipInside depth p := by
  match elements with
  | [] => exact fun t ht => absurd ht List.not_mem_nil
  | element :: elements =>
    intro t ht p hp
    rcases List.mem_cons.1 ht with rfl | ht
    · exact skipInside_element element hd hp
    · exact skipInside_elements elements hd t ht p hp

theorem skipInside_members (members : List Member) {depth : Int} (hd : 0 < depth) :
    ∀ t ∈ renderMembers members, ∀ p, byteAt p 0 ≠ 0x22 → skipInside depth (t ++ p) = skipInside depth p := by
  match members with
  | [] => exact fun t ht => absurd ht List.not_mem_nil
  | m :: members =>
    intro t ht p hp
    rcases List.mem_cons.1 ht with rfl | ht
    · exact skipInside_member m hd hp
    · exact skipInside_members members hd t ht p hp

end

/-- The byte that ends a member or an element. -/
def isEnd (c : UInt8) : Bool := c == 0x2C || c == 0x7D || c == 0x5D

theorem isSpace_of_isScalarByte {c : UInt8} (h : isScalarByte c = true) : isSpace c = false := by
  have hle := isScalarByte_le h
  simp only [isSpace, Bool.or_eq_false_iff, beq_eq_false_iff_ne, Bool.and_eq_false_iff, decide_eq_false_iff_not]
  exact ⟨ne_of_isScalarByte h rfl, .inr fun hc => absurd (UInt8.le_trans hle hc) (by decide)⟩

theorem isEnd_of_isScalarByte {c : UInt8} (h : isScalarByte c = true) : isEnd c = false := by
  simp only [isEnd, Bool.or_eq_false_iff, beq_eq_false_iff_ne]
  refine ⟨⟨?_, ?_⟩, ?_⟩ <;> exact ne_of_isScalarByte h rfl

theorem isEnd_of_isSpace {c : UInt8} (h : isSpace c = true) : isEnd c = false := by
  rw [← Bool.not_eq_true]
  intro hend
  simp only [isEnd, Bool.or_eq_true, beq_iff_eq] at hend
  rcases hend with (rfl | rfl) | rfl <;> cases h

/-- A value begins with a byte that is no blank and that tells what it is. -/
theorem skipWs_render (v : Value) (p : Bytes) : skipWs (v.render ++ p) = v.render ++ p := by
  cases v with
  | scalar s =>
    obtain ⟨c, t, hs, hc⟩ := s.render_cons
    rw [Value.render, hs]
    exact skipWs_cons (isSpace_of_isScalarByte hc) (t ++ p)
  | string cs => exact skipWs_cons (by decide) _
  | array blanks elements =>
    rw [Value.render]
    exact skipWs_cons (by decide) _
  | object blanks members =>
    rw [Value.render]
    exact skipWs_cons (by decide) _

/-- `skip_json_value` stops at the end of the value, or behind the spaces after it. -/
theorem skipJsonValue_render (v : Value) {after : Bytes} (hafter : ∀ c ∈ after, isSpace c = true) {c : UInt8}
    (hc : isEnd c = true) (rest : Bytes) :
    ∃ b, b <:+ after ∧ skipJsonValue (v.render ++ (after ++ c :: rest)) = some (b ++ c :: rest) := by
  unfold skipJsonValue
  rw [skipWs_render]
  dsimp only
  have hnested {l r : UInt8} (hl : l = 0x5B ∨ l = 0x7B) (hr : r = 0x5D ∨ r = 0x7D)
    (blanks : Blanks) {parts : List Bytes}
      (hparts : ∀ t ∈ parts, ∀ p, byteAt p 0 ≠ 0x22 → skipInside 1 (t ++ p) = skipInside 1 p) (p : Bytes) :
      skipNested ((l :: blanks.bytes ++ commas parts ++ [r] ++ p).length + 1) 0
        (l :: blanks.bytes ++ commas parts ++ [r] ++ p) =
        some p :=
    (skipInside_bracketed (Int.le_refl 0) hl hr blanks (skipInside_commas (by decide) hparts
      (by rcases hr with rfl | rfl <;> simp [byteAt]))).trans (if_neg (by decide))
  cases v with
  | scalar s =>
    obtain ⟨d, t, hs, hd⟩ := s.render_cons
    have hplain := isPlain_of_isScalarByte hd
    simp only [isPlain, Bool.and_eq_true, bne_iff_ne] at hplain
    have hfirst : byteAt (Value.render (.scalar s) ++ (after ++ c :: rest)) 0 = d := by
      rw [Value.render, hs]
      rfl
    refine ⟨[], List.nil_suffix, ?_⟩
    have hstop : (fun c : UInt8 => c != 0x2C && c != 0x7D && c != 0x5D) = (!isEnd ·) := by
      funext c
      simp [isEnd, bne]
    rw [hfirst, if_neg hplain.1.1.1.1, if_neg (by simp [hplain]), hstop, List.nil_append, ← List.append_assoc,
      List.dropWhile_append_of_pos, List.dropWhile_cons_of_neg]
    · simp [hc]
    · intro x hx
      rw [Bool.not_eq_true']
      rcases List.mem_append.1 hx with hx | hx
      · exact isEnd_of_isScalarByte (s.isScalarByte_of_mem hx)
      · exact isEnd_of_isSpace (hafter x hx)
  | string cs =>
    refine ⟨after, List.suffix_rfl, ?_⟩
    rw [Value.render, if_pos (show byteAt (quoted cs ++ _) 0 = 0x22 from rfl)]
    exact skipJsonString_quoted cs _
  | array blanks elements =>
    refine ⟨after, List.suffix_rfl, ?_⟩
    rw [Value.render, if_neg (by simp [byteAt]), if_pos (by simp [byteAt])]
    exact hnested (.inl rfl) (.inl rfl) blanks (skipInside_elements elements (by decide)) _
  | object blanks members =>
    refine ⟨after, List.suffix_rfl, ?_⟩
    rw [Value.render, if_neg (by simp [byteAt]), if_pos (by simp [byteAt])]
    exact hnested (.inr rfl) (.inr rfl) blanks (skipInside_members members (by decide)) _

/-! ## The string fields of an object -/

/-- What `tnt_json_get_string_field` finds in the members, with `found` in front of them. -/
def stringField (key : Bytes) (outSize : Nat) : Option Bytes → List Member → Option Bytes
  | found, [] => found
  | found, m :: members =>
    (readString 128 m.name).bind fun parsedKey =>
      if parsedKey = key then
        match m.value with
        | .string cs => (readString outSize cs).bind fun out => stringField key outSize (some out) members
        | _ => none
      else stringField key outSize found members

/-- What stands behind a member. -/
def behindMember (members : List Member) (rest : Bytes) : Bytes :=
  (renderMembers members).flatMap (0x2C :: ·) ++ 0x7D :: rest

theorem behindMember_cons (m : Member) (members : List Member) (rest : Bytes) :
    behindMember (m :: members) rest = 0x2C :: (m.render ++ behindMember members rest) := by
  simp [behindMember, renderMembers]

theorem length_behindMember (members : List Member) (rest : Bytes) :
    members.length ≤ (behindMember members rest).length := by
  induction members with
  | nil => exact Nat.zero_le _
  | cons m members ih =>
    simp only [behindMember, renderMembers, List.flatMap_cons, List.length_append, List.length_cons] at ih ⊢
    omega

/-- The end of a round: the comma or the brace behind a member. -/
def nextMember (key : Bytes) (outSize rounds : Nat) (found : Option Bytes) (p : Bytes) : Option Bytes :=
  match skipWs p with
  | [] => none
  | c :: p => if c = 0x2C then getStringFieldLoop key outSize rounds found p else if c = 0x7D then found else none

theorem nextMember_blanks (key : Bytes) (outSize rounds : Nat) (found : Option Bytes) (b : Blanks) (p : Bytes) :
    nextMember key outSize rounds found (b.bytes ++ p) = nextMember key outSize rounds found p := by
  unfold nextMember
  rw [skipWs_blanks]

/-- A value that is no string is not read as one. -/
theorem parseJsonString_other (outSize : Nat) {v : Value} (h : ∀ cs, v ≠ .string cs) (p : Bytes) :
    parseJsonString outSize (v.render ++ p) = none := by
  have hfirst {c : UInt8} (hc : c ≠ 0x22) (t : Bytes) : parseJsonString outSize (c :: t) = none := if_pos (.inl hc)
  cases v with
  | scalar s =>
    obtain ⟨c, t, hs, hc⟩ := s.render_cons
    have hplain := isPlain_of_isScalarByte hc
    simp only [isPlain, Bool.and_eq_true, bne_iff_ne] at hplain
    rw [Value.render, hs]
    exact hfirst hplain.1.1.1.1 (t ++ p)
  | string cs => exact absurd rfl (h cs)
  | array blanks elements =>
    rw [Value.render]
    exact hfirst (by decide) _
  | object blanks members =>
    rw [Value.render]
    exact hfirst (by decide) _

/-- A round over a member. -/
theorem getStringFieldLoop_member {key : Bytes} {outSize rounds : Nat} (hsize : 0 < outSize) (found : Option Bytes)
    (b : Blanks) (m : Member) (p : Bytes) {c : UInt8} (hc : isEnd c = true) :
    getStringFieldLoop key outSize (rounds + 1) found (b.bytes ++ m.render ++ c :: p) =
      (readString 128 m.name).bind fun parsedKey =>
        if parsedKey = key then
          match m.value with
          | .string cs => (readString outSize cs).bind fun out => nextMember key outSize rounds (some out) (c :: p)
          | _ => none
        else nextMember key outSize rounds found (c :: p) := by
  obtain ⟨before, name, afterName, beforeValue, value, after⟩ := m
  have hstart : skipWs (b.bytes ++ Member.render ⟨before, name, afterName, beforeValue, value, after⟩ ++ c :: p) =
      quoted name ++ (afterName.bytes ++ 0x3A :: (beforeValue.bytes ++ (value.render ++ (after.bytes ++ c :: p)))) := by
    simp only [Member.render, List.append_assoc, List.cons_append]
    rw [skipWs_blanks, skipWs_blanks]
    exact skipWs_cons (by decide) _
  have hcolon (p : Bytes) : skipWs (afterName.bytes ++ 0x3A :: p) = 0x3A :: p := by
    rw [skipWs_blanks, skipWs_cons (by decide)]
  rw [getStringFieldLoop]
  dsimp only
  rw [hstart, if_neg (by simp [quoted, byteAt]), parseJsonString_quoted (by decide)]
  cases readString 128 name with
  | none => rfl
  | some parsedKey =>
    rw [Option.map_some, Option.bind_some, Option.bind_some]
    dsimp only
    rw [hcolon]
    dsimp only
    rw [if_neg (by decide), skipWs_blanks, skipWs_render]
    split
    · cases value with
      | string cs =>
        show ((parseJsonString outSize (quoted cs ++ _)).map _).bind _ = (readString outSize cs).bind _
        rw [parseJsonString_quoted hsize]
        cases readString outSize cs with
        | none => rfl
        | some out => exact nextMember_blanks key outSize rounds (some out) after (c :: p)
      | scalar s => rw [parseJsonString_other outSize (by simp)]; rfl
      | array blanks elements => rw [parseJsonString_other outSize (by simp)]; rfl
      | object blanks members => rw [parseJsonString_other outSize (by simp)]; rfl
    · obtain ⟨b, hb, hskip⟩ := skipJsonValue_render value (fun x hx => isSpace_of_isBlank (after.blank x hx)) hc p
      rw [hskip]
      exact nextMember_blanks key outSize rounds found ⟨b, fun x hx => after.blank x (hb.subset hx)⟩ (c :: p)

/-- The loop over the members of an object. -/
theorem getStringFieldLoop_members {key : Bytes} {outSize rounds : Nat} (hsize : 0 < outSize) (found : Option Bytes)
    (b : Blanks) (m : Member) (members : List Member) (rest : Bytes) (hrounds : members.length < rounds) :
    getStringFieldLoop key outSize rounds found (b.bytes ++ m.render ++ behindMember members rest) =
      stringField key outSize found (m :: members) := by
  induction members generalizing rounds found b m with
  | nil =>
    obtain ⟨rounds, rfl⟩ := Nat.exists_eq_succ_of_ne_zero (Nat.ne_of_gt hrounds)
    exact getStringFieldLoop_member hsize found b m rest (by decide)
  | cons n members ih =>
    obtain ⟨rounds, rfl⟩ := Nat.exists_eq_succ_of_ne_zero (Nat.ne_of_gt (Nat.zero_lt_of_lt hrounds))
    have hnext (found : Option Bytes) :
        nextMember key outSize rounds found (0x2C :: (n.render ++ behindMember members rest)) =
          stringField key outSize found (n :: members) :=
      ih found ⟨[], by simp⟩ n (by rw [List.length_cons] at hrounds; omega)
    rw [behindMember_cons, getStringFieldLoop_member hsize found b m _ (by decide), stringField]
    simp only [hnext]

/-- `tnt_json_get_string_field` of an object: its members are all that matters. -/
theorem jsonGetStringField_render {key : Bytes} {outSize : Nat} (hkey : key ≠ []) (hsize : 0 < outSize)
    (doc : Document) :
    jsonGetStringField doc.render key outSize = stringField key outSize none doc.members := by
  obtain ⟨before, blanks, members, after⟩ := doc
  unfold jsonGetStringField Document.render
  rw [if_neg (by simp [hkey]; omega), Value.render]
  simp only [List.append_assoc, List.cons_append, List.nil_append]
  rw [skipWs_blanks, skipWs_cons (by decide)]
  dsimp only
  rw [if_neg (by decide)]
  cases members with
  | nil =>
    rw [renderMembers, commas, List.nil_append, getStringFieldLoop]
    dsimp only
    rw [skipWs_blanks, skipWs_cons (by decide)]
    rfl
  | cons m members =>
    rw [renderMembers, commas, List.append_assoc]
    have hrounds : members.length < (blanks.bytes ++ (m.render ++ behindMember members after.bytes)).length + 1 := by
      have := length_behindMember members after.bytes
      simp only [List.length_append]
      omega
    have hloop := @getStringFieldLoop_members key outSize _ hsize none blanks m members after.bytes hrounds
    rw [List.append_assoc] at hloop
    exact hloop

/-- The reader takes the names of all members: each stands for at most 127 bytes, with no NUL. -/
def NamesRead (doc : Document) : Prop := ∀ m ∈ doc.members, (readString 128 m.name).isSome

/-- The string that the members named `key` hold for the reader: all of them are strings that it takes, and the
last one counts. -/
def ownString (doc : Document) (key : Bytes) (outSize : Nat) : Option Bytes :=
  stringField key outSize none (doc.named key)

/-- A name that is read is the one it stands for. -/
theorem readString_eq_some {outSize : Nat} {cs : List Character} {text : Bytes}
    (h : readString outSize cs = some text) :
    decode cs = some text := by
  obtain ⟨text', hdecode, h⟩ := Option.bind_eq_some_iff.1 h
  split at h
  · cases h
    exact hdecode
  · cases h

/-- Where the names are read, members with other names make no difference. -/
theorem stringField_named {key : Bytes} {outSize : Nat} {members : List Member} (found : Option Bytes)
    (h : ∀ m ∈ members, (readString 128 m.name).isSome) :
    stringField key outSize found members =
      stringField key outSize found (members.filter (decode ·.name = some key)) := by
  induction members generalizing found with
  | nil => rfl
  | cons m members ih =>
    obtain ⟨parsedKey, hkey⟩ := Option.isSome_iff_exists.1 (h m List.mem_cons_self)
    have hrest (found : Option Bytes) := ih found fun m hm => h m (List.mem_cons_of_mem _ hm)
    have hdecode := readString_eq_some hkey
    rw [stringField, hkey, Option.bind_some, List.filter_cons, hdecode]
    by_cases heq : parsedKey = key
    · rw [if_pos heq, if_pos (by simp [heq]), stringField, hkey, Option.bind_some, if_pos heq]
      simp only [hrest]
    · rw [if_neg heq, if_neg (by simp [heq]), hrest]

/-- No field is found where a name is not read. -/
theorem namesRead_of_stringField {key : Bytes} {outSize : Nat} {members : List Member} {found : Option Bytes}
    (h : (stringField key outSize found members).isSome) : ∀ m ∈ members, (readString 128 m.name).isSome := by
  induction members generalizing found with
  | nil => exact fun m hm => absurd hm List.not_mem_nil
  | cons m members ih =>
    rw [stringField] at h
    cases hkey : readString 128 m.name with
    | none =>
      rw [hkey] at h
      cases h
    | some parsedKey =>
      rw [hkey, Option.bind_some] at h
      have hrest : ∃ found, (stringField key outSize found members).isSome := by
        split at h
        · split at h
          · obtain ⟨out, h⟩ := Option.isSome_iff_exists.1 h
            obtain ⟨d, -, h⟩ := Option.bind_eq_some_iff.1 h
            exact ⟨some d, Option.isSome_iff_exists.2 ⟨out, h⟩⟩
          · cases h
        · exact ⟨found, h⟩
      obtain ⟨found, hrest⟩ := hrest
      intro n hn
      rcases List.mem_cons.1 hn with rfl | hn
      · rw [hkey]
        rfl
      · exact ih hrest n hn

/-- The reader of an object finds the string of the members named so, if it takes the names of all. -/
theorem jsonGetStringField_own {key text : Bytes} {outSize : Nat} (hkey : key ≠ []) (hsize : 0 < outSize)
    (doc : Document) :
    jsonGetStringField doc.render key outSize = some text ↔ NamesRead doc ∧ ownString doc key outSize = some text := by
  rw [jsonGetStringField_render hkey hsize]
  constructor
  · intro h
    have hnames : NamesRead doc := namesRead_of_stringField (Option.isSome_iff_exists.2 ⟨text, h⟩)
    exact ⟨hnames, (stringField_named none hnames).symm.trans h⟩
  · rintro ⟨hnames, h⟩
    exact (stringField_named none hnames).trans h

/-- Unknown fields are ignored. Where one member of an object is named `key` and holds a string that stands for
`text`, with no NUL and room in `out`, the reader finds it if and only if the key is not empty and the
reader takes the names of all members. -/
theorem jsonGetStringField_single {doc : Document} {key text : Bytes} {outSize : Nat} {m : Member} {cs : List Character}
    (hm : doc.named key = [m]) (hv : m.value = .string cs) (hcs : decode cs = some text) (hnul : 0 ∉ text)
    (hfits : text.length < outSize) :
    jsonGetStringField doc.render key outSize = some text ↔ key ≠ [] ∧ NamesRead doc := by
  by_cases hkey : key = []
  · rw [jsonGetStringField, if_pos (.inl hkey)]
    exact iff_of_false (fun h => by cases h) fun h => h.1 hkey
  rw [jsonGetStringField_own hkey (Nat.zero_lt_of_lt hfits)]
  refine ⟨fun h => ⟨hkey, h.1⟩, fun ⟨_, hnames⟩ => ⟨hnames, ?_⟩⟩
  have hmem : m ∈ doc.named key := hm ▸ List.mem_singleton_self m
  obtain ⟨hmember, hname⟩ := List.mem_filter.1 hmem
  obtain ⟨parsedKey, hparsed⟩ := Option.isSome_iff_exists.1 (hnames m hmember)
  have heq : parsedKey = key := by
    have hdecode := readString_eq_some hparsed
    rw [of_decide_eq_true hname] at hdecode
    exact (Option.some.inj hdecode).symm
  have hread : readString outSize cs = some text := by
    rw [readString, readOnto, hcs, Option.bind_some, if_pos ⟨hnul, by rw [List.length_nil]; omega⟩, List.nil_append]
  rw [ownString, hm, stringField, hparsed, Option.bind_some, if_pos heq, hv]
  show (readString outSize cs).bind _ = _
  rw [hread]
  rfl

/-- Objects without blanks and escapes. -/
def noBlanks : Blanks := ⟨[], fun _ h => absurd h List.not_mem_nil⟩

def plainMember (name : Bytes) (value : Value) : Member :=
  ⟨noBlanks, unescapedText name, noBlanks, noBlanks, value, noBlanks⟩

def plainObject (members : List Member) : Document := ⟨noBlanks, noBlanks, members, noBlanks⟩

/-- A field behind another one with a name of some bytes. -/
def behindLongName (length : Nat) : Document :=
  plainObject [plainMember (List.replicate length 0x61) (.scalar .null),
    plainMember (lit "type") (.string (unescapedText (lit "post")))]

theorem behindLongName_named {length : Nat} (h : 4 < length) :
    (behindLongName length).named (lit "type") = [plainMember (lit "type") (.string (unescapedText (lit "post")))] := by
  have hname : decode (unescapedText (List.replicate length 0x61)) = some (List.replicate length 0x61) :=
    decode_unescapedText fun c hc => List.eq_of_mem_replicate hc ▸ by decide
  have hne : List.replicate length (0x61 : UInt8) ≠ lit "type" := by
    intro heq
    have hlen := congrArg List.length heq
    rw [List.length_replicate, show (lit "type").length = 4 from rfl] at hlen
    omega
  unfold Document.named behindLongName plainObject
  rw [List.filter_cons_of_neg]
  · rfl
  · rw [decide_eq_true_eq]
    show decode (unescapedText (List.replicate length 0x61)) ≠ _
    rw [hname]
    exact fun heq => hne (Option.some.inj heq)

theorem jsonGetStringField_single_behind :
    jsonGetStringField (behindLongName 127).render (lit "type") 64 = some (lit "post") := by
  have hnames : NamesRead (behindLongName 127) := by
    unfold NamesRead
    decide +kernel
  exact (@jsonGetStringField_single _ _ (lit "post") 64 _ _ (behindLongName_named (by decide)) rfl rfl (by decide)
    (by decide)).2 ⟨by decide, hnames⟩

/-- A name of 128 bytes hides the field. -/
theorem jsonGetStringField_hidden :
    (∃ m cs, (behindLongName 128).named (lit "type") = [m] ∧ m.value = .string cs ∧ decode cs = some (lit "post")) ∧
      jsonGetStringField (behindLongName 128).render (lit "type") 64 ≠ some (lit "post") :=
  ⟨⟨_, _, behindLongName_named (by decide), rfl, rfl⟩, by decide +kernel⟩

end Tnt
