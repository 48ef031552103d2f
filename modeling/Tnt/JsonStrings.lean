import Tnt.JsonReader
/-!
# Strings that are written and read again

`parse_json_string` accepts the strings of JSON only (`parseJsonString_eq_some`), and
what `tnt_json_append_string` writes is one that stands for its text (`decode_encode`).
-/
open BaseLib

namespace Tnt

open Json

/-! ## What is accepted -/

theorem isHex_of_hexValue {c : UInt8} (h : (hexValue c).isSome = true) : isHex c = true := by
  simp only [isHex, Bool.or_eq_true]
  unfold hexValue at h
  split at h
  · rename_i hc
    exact .inl (.inl hc)
  split at h
  · rename_i hc
    exact .inr hc
  split at h
  · rename_i hc
    exact .inl (.inr hc)
  · cases h

theorem hexValue_byteAt {p : Bytes} {i n : Nat} (h : hexValue (byteAt p i) = some n) :
    i < p.length ∧ isHex (byteAt p i) = true := by
  refine ⟨?_, isHex_of_hexValue (Option.isSome_iff_exists.2 ⟨n, h⟩)⟩
  by_contra hi
  rw [byteAt, List.getD_eq_getElem?_getD, List.getElem?_eq_none (Nat.not_lt.1 hi)] at h
  cases h

/-- Four digits are a code unit. -/
theorem parseHex4_eq_some {p : Bytes} {n : Nat} (h : parseHex4 p = some n) :
    ∃ (u : CodeUnit) (q : Bytes), p = u.a :: u.b :: u.c :: u.d :: q ∧ u.value = n := by
  have hdigits := h
  unfold parseHex4 at hdigits
  obtain ⟨a, ha, hdigits⟩ := Option.bind_eq_some_iff.1 hdigits
  obtain ⟨b, hb, hdigits⟩ := Option.bind_eq_some_iff.1 hdigits
  obtain ⟨c, hc, hdigits⟩ := Option.bind_eq_some_iff.1 hdigits
  obtain ⟨d, hd, -⟩ := Option.bind_eq_some_iff.1 hdigits
  obtain ⟨-, ha⟩ := hexValue_byteAt ha
  obtain ⟨-, hb⟩ := hexValue_byteAt hb
  obtain ⟨-, hc⟩ := hexValue_byteAt hc
  obtain ⟨hlen, hd⟩ := hexValue_byteAt hd
  match p, hlen with
  | x :: y :: z :: w :: q, _ =>
    have hu := parseHex4_eq ⟨x, y, z, w, ha, hb, hc, hd⟩ q
    exact ⟨⟨x, y, z, w, ha, hb, hc, hd⟩, q, rfl, Option.some.inj (hu.symm.trans h)⟩

/-- Behind `\u` stand a code unit or two. -/
theorem parseUnicodeEscape_eq_some {p q : Bytes} {n : Nat} (h : parseUnicodeEscape p = some (n, q)) :
    ∃ cs, 0x5C :: 0x75 :: p = spell cs ++ q := by
  obtain ⟨cp, hcp, -⟩ := Option.bind_eq_some_iff.1 h
  obtain ⟨u, p', rfl, -⟩ := parseHex4_eq_some hcp
  rw [parseUnicodeEscape_eq] at h
  split at h
  · split at h
    · cases h
    next hpair =>
      push Not at hpair
      obtain ⟨low, hlow, h⟩ := Option.bind_eq_some_iff.1 h
      obtain ⟨v, q', hv, -⟩ := parseHex4_eq_some hlow
      have hp' : p' = 0x5C :: 0x75 :: v.a :: v.b :: v.c :: v.d :: q' := by
        match p', hv with
        | x :: y :: p', hv => rw [show x = 0x5C from hpair.1, show y = 0x75 from hpair.2, show p' = _ from hv]
      split at h
      · cases h
      · simp only [Option.some.injEq, Prod.mk.injEq] at h
        obtain ⟨-, rfl⟩ := h
        subst hp'
        exact ⟨[.unicode u, .unicode v], rfl⟩
  split at h
  · cases h
  · cases h
    exact ⟨[.unicode u], rfl⟩

theorem escapedByte_eq_some {esc b : UInt8} (h : escapedByte esc = some b) : ∃ e : Escape, e.letter = esc := by
  unfold escapedByte at h
  split_ifs at h with hself hb hf hn hr ht
  · rcases hself with rfl | rfl | rfl
    · exact ⟨.quote, rfl⟩
    · exact ⟨.backslash, rfl⟩
    · exact ⟨.slash, rfl⟩
  · exact ⟨.backspace, hb.symm⟩
  · exact ⟨.formFeed, hf.symm⟩
  · exact ⟨.lineFeed, hn.symm⟩
  · exact ⟨.carriageReturn, hr.symm⟩
  · exact ⟨.tab, ht.symm⟩

/-- A text that the loop reads to a quote is spelt by characters. -/
theorem parseJsonStringLoop_eq_some {outSize rounds : Nat} {out p text rest : Bytes}
    (h : parseJsonStringLoop outSize rounds out p = some (text, rest)) : ∃ cs, p = spell cs ++ 0x22 :: rest := by
  induction rounds generalizing out p with
  | zero => cases h
  | succ rounds ih =>
    cases p with
    | nil => cases h
    | cons c p =>
      replace h : (if c = 0x22 then some (out, p) else if c < 0x20 then none
        else if c ≠ 0x5C then (appendByte outSize out c).bind (parseJsonStringLoop outSize rounds · p) else _) =
          some (text, rest) := h
      split at h
      next hquote =>
        cases h
        exact ⟨[], by rw [hquote]; rfl⟩
      split at h
      · cases h
      split at h
      next hquote hcontrol hplain =>
        obtain ⟨_, -, h⟩ := Option.bind_eq_some_iff.1 h
        obtain ⟨cs, rfl⟩ := ih h
        exact ⟨.plain c ⟨UInt8.not_lt.1 hcontrol, hquote, hplain⟩ :: cs, rfl⟩
      next hbackslash =>
        obtain rfl := not_not.1 hbackslash
        cases p with
        | nil => cases h
        | cons esc p =>
          dsimp only at h
          split at h
          next hu =>
            obtain ⟨⟨cp, q⟩, hunicode, hrest⟩ := Option.bind_eq_some_iff.1 h
            obtain ⟨_, -, hloop⟩ := Option.bind_eq_some_iff.1 hrest
            obtain ⟨units, hunits⟩ := parseUnicodeEscape_eq_some hunicode
            obtain ⟨cs, rfl⟩ := ih hloop
            refine ⟨units ++ cs, ?_⟩
            rw [spell, List.flatMap_append, List.append_assoc, hu]
            exact hunits
          · obtain ⟨b, hb, hrest⟩ := Option.bind_eq_some_iff.1 h
            obtain ⟨_, -, hloop⟩ := Option.bind_eq_some_iff.1 hrest
            obtain ⟨e, rfl⟩ := escapedByte_eq_some hb
            obtain ⟨cs, rfl⟩ := ih hloop
            exact ⟨.escape e :: cs, rfl⟩

/-- `parse_json_string` accepts a string of JSON that stands for what is read, and nothing else. -/
theorem parseJsonString_eq_some {outSize : Nat} {p text rest : Bytes} :
    parseJsonString outSize p = some (text, rest) ↔
      0 < outSize ∧ ∃ cs, p = quoted cs ++ rest ∧ readString outSize cs = some text := by
  constructor
  · intro h
    cases p with
    | nil => cases h
    | cons c p =>
      have hloop := h
      unfold parseJsonString at hloop
      dsimp only at hloop
      split at hloop
      · cases hloop
      next hstart =>
        push Not at hstart
        obtain ⟨cs, rfl⟩ := parseJsonStringLoop_eq_some hloop
        have hp : c :: (spell cs ++ 0x22 :: rest) = quoted cs ++ rest := by
          rw [hstart.1, quoted]
          simp
        rw [hp, parseJsonString_quoted (Nat.pos_of_ne_zero hstart.2)] at h
        obtain ⟨_, hread, h⟩ := Option.map_eq_some_iff.1 h
        cases h
        exact ⟨Nat.pos_of_ne_zero hstart.2, cs, hp, hread⟩
  · rintro ⟨hsize, cs, rfl, hread⟩
    rw [parseJsonString_quoted hsize, hread]
    rfl

/-- What is read has no NUL and fits. -/
theorem readString_bounds {outSize : Nat} {cs : List Character} {text : Bytes} (h : readString outSize cs = some text) :
    0 ∉ text ∧ text.length < outSize := by
  obtain ⟨text', -, h⟩ := Option.bind_eq_some_iff.1 h
  split at h
  next hfits =>
    cases h
    rw [List.length_nil, Nat.zero_add] at hfits
    exact hfits
  · cases h

/-! ## What is written -/

/-- The digits of `%x` are read again. -/
theorem hexDigit_spec {n : UInt8} (hn : n < 16) : isHex (hexDigit n) = true ∧ hexVal (hexDigit n) = n.toNat := by
  rw [UInt8.lt_iff_toNat_lt] at hn
  simp only [UInt8.reduceToNat] at hn
  unfold hexDigit
  split
  · rename_i h
    rw [UInt8.lt_iff_toNat_lt] at h
    simp only [UInt8.reduceToNat] at h
    have hsum : (0x30 + n).toNat = 48 + n.toNat := by
      rw [UInt8.toNat_add]
      simp only [UInt8.reduceToNat]
      omega
    simp only [isHex, hexVal, Bool.or_eq_true, Bool.and_eq_true, decide_eq_true_eq, UInt8.le_iff_toNat_le, hsum,
      UInt8.reduceToNat]
    rw [if_pos (by omega)]
    omega
  · rename_i h
    rw [UInt8.lt_iff_toNat_lt] at h
    simp only [UInt8.reduceToNat] at h
    have hsum : (0x57 + n).toNat = 87 + n.toNat := by
      rw [UInt8.toNat_add]
      simp only [UInt8.reduceToNat]
      omega
    simp only [isHex, hexVal, Bool.or_eq_true, Bool.and_eq_true, decide_eq_true_eq, UInt8.le_iff_toNat_le, hsum,
      UInt8.reduceToNat]
    rw [if_neg (by omega), if_neg (by omega)]
    omega
theorem div_lt_sixteen (c : UInt8) : c / 16 < 16 := by
  have hc := c.toNat_lt
  rw [UInt8.lt_iff_toNat_lt, UInt8.toNat_div]
  simp only [UInt8.reduceToNat]
  omega

theorem mod_lt_sixteen (c : UInt8) : c % 16 < 16 := by
  rw [UInt8.lt_iff_toNat_lt, UInt8.toNat_mod]
  exact Nat.mod_lt _ (by decide)

theorem isHex_hexDigit (c : UInt8) : isHex (hexDigit (c / 16)) = true ∧ isHex (hexDigit (c % 16)) = true :=
  ⟨(hexDigit_spec (div_lt_sixteen c)).1, (hexDigit_spec (mod_lt_sixteen c)).1⟩

/-- The code unit of a byte. -/
def byteUnit (c : UInt8) : CodeUnit :=
  ⟨0x30, 0x30, hexDigit (c / 16), hexDigit (c % 16), by decide, by decide, isHex_hexDigit c⟩

theorem byteUnit_value (c : UInt8) : (byteUnit c).value = c.toNat := by
  have hzero : hexVal 0x30 = 0 := rfl
  simp only [byteUnit, CodeUnit.value, hzero, (hexDigit_spec (div_lt_sixteen c)).2,
    (hexDigit_spec (mod_lt_sixteen c)).2,
    UInt8.toNat_div, UInt8.toNat_mod, UInt8.reduceToNat]
  omega

/-- How a byte of a text is written. -/
def encodeByte (c : UInt8) : Character :=
  if h : 0x20 ≤ c ∧ c ≠ 0x22 ∧ c ≠ 0x5C then .plain c h
  else if c = 0x5C then .escape .backslash
  else if c = 0x22 then .escape .quote
  else if c = 0x08 then .escape .backspace
  else if c = 0x0C then .escape .formFeed
  else if c = 0x0A then .escape .lineFeed
  else if c = 0x0D then .escape .carriageReturn
  else if c = 0x09 then .escape .tab
  else .unicode (byteUnit c)

/-- How a text is written. -/
def encode (text : Bytes) : List Character := text.map encodeByte

theorem render_encodeByte (c : UInt8) : (encodeByte c).render = jsonEscape c := by
  revert c
  exact forall_byte (by decide +kernel)

/-- The writer writes a string of JSON. -/
theorem quoted_encode (text : Bytes) : quoted (encode text) = jsonString text := by
  unfold quoted encode jsonString spell
  rw [List.flatMap_map]
  simp only [render_encodeByte]

/-- A code unit of its own. -/
theorem decode_unicode {u : CodeUnit} (hu : ¬ (u.IsHigh ∨ u.IsLow)) (cs : List Character) :
    decode (.unicode u :: cs) = (decode cs).map (utf8 u.value ++ ·) := by
  by_cases hnext : ∃ v cs', cs = .unicode v :: cs'
  · obtain ⟨v, cs', rfl⟩ := hnext
    rw [decode, if_neg fun h => hu (.inl h.1), if_neg hu]
  · rw [decode, if_neg hu]
    exact fun v cs' h => hnext ⟨v, cs', h⟩

/-- A byte that is no surrogate stands for itself. -/
theorem utf8_toNat {c : UInt8} (h : c < 0x80) : utf8 c.toNat = [c] := by
  have hlt : c.toNat < 0x80 := h
  rw [← codepointBytes_eq (by unfold Nat.isValidChar; omega)]
  unfold codepointBytes
  rw [if_pos (by omega), UInt8.ofNat_toNat]

/-- What is written for a byte stands for it. -/
theorem decode_encodeByte (c : UInt8) (cs : List Character) :
    decode (encodeByte c :: cs) = (decode cs).map (c :: ·) := by
  unfold encodeByte
  split
  · rw [decode]
  next hplain =>
    split_ifs with hbackslash hquote hb hf hn hr ht
    · rw [decode, hbackslash]; rfl
    · rw [decode, hquote]; rfl
    · rw [decode, hb]; rfl
    · rw [decode, hf]; rfl
    · rw [decode, hn]; rfl
    · rw [decode, hr]; rfl
    · rw [decode, ht]; rfl
    · have hcontrol : c < 0x20 := by
        by_contra hc
        exact hplain ⟨UInt8.not_lt.1 hc, hquote, hbackslash⟩
      have hlt : c.toNat < 0x20 := hcontrol
      rw [decode_unicode, byteUnit_value, utf8_toNat (UInt8.lt_trans hcontrol (by decide))]
      · rfl
      · rw [CodeUnit.IsHigh, CodeUnit.IsLow, byteUnit_value]
        omega

/-- The string that is written stands for the text. -/
theorem decode_encode (text : Bytes) : decode (encode text) = some text := by
  induction text with
  | nil => rfl
  | cons c text ih =>
    show decode (encodeByte c :: encode text) = _
    rw [decode_encodeByte, ih]
    rfl

theorem readString_encode {outSize : Nat} {text : Bytes} (hnul : 0 ∉ text) (hfits : text.length < outSize) :
    readString outSize (encode text) = some text := by
  rw [readString, readOnto, decode_encode, Option.bind_some, if_pos ⟨hnul, by rwa [List.length_nil, Nat.zero_add]⟩]
  rfl

/-- A text without NUL is read back from its string. -/
theorem parseJsonString_jsonString {outSize : Nat} {text : Bytes} (hnul : 0 ∉ text) (hfits : text.length < outSize)
    (rest : Bytes) : parseJsonString outSize (jsonString text ++ rest) = some (text, rest) := by
  refine parseJsonString_eq_some.2 ⟨Nat.zero_lt_of_lt hfits, encode text, ?_, readString_encode hnul hfits⟩
  rw [quoted_encode]

/-- The writer writes the whole string into a buffer with room for it. -/
theorem jsonAppendString_fits {bufSize : Nat} {buffer text : Bytes} (h : (buffer ++ jsonString text).length < bufSize) :
    jsonAppendString bufSize buffer text = buffer ++ jsonString text := by
  have hlen := h
  rw [List.length_append] at hlen
  have htake := jsonAppendString_take bufSize buffer text
  rwa [List.take_of_length_le (by omega), List.take_of_length_le (by omega)] at htake

/-- An object with one string field. -/
def fieldObject (key text : Bytes) : Bytes := [0x7B] ++ jsonString key ++ [0x3A] ++ jsonString text ++ [0x7D]

/-- The field of such an object is read back. -/
theorem jsonGetStringField_fieldObject {outSize : Nat} {key text : Bytes} (hkey : key ≠ []) (hkeyNul : 0 ∉ key)
    (hkeyFits : key.length < 128) (hnul : 0 ∉ text) (hfits : text.length < outSize) :
    jsonGetStringField (fieldObject key text) key outSize = some text := by
  have hrender : fieldObject key text =
      (plainObject [⟨noBlanks, encode key, noBlanks, noBlanks, .string (encode text), noBlanks⟩]).render := by
    unfold fieldObject plainObject Document.render
    simp only [Value.render, renderMembers, commas, Member.render, quoted_encode, noBlanks, List.flatMap_nil,
      List.nil_append, List.append_nil, List.append_assoc, List.cons_append]
  rw [hrender, jsonGetStringField_render hkey (Nat.zero_lt_of_lt hfits)]
  show (readString 128 (encode key)).bind _ = _
  rw [readString_encode hkeyNul hkeyFits, Option.bind_some, if_pos rfl]
  show (readString outSize (encode text)).bind _ = _
  rw [readString_encode hnul hfits]
  rfl

/-- Strings are read back as they were. What the writer appends for a text is read entirely, as that text; so
is the field of an object; and a string that was read once is read again from what is written for it. -/
theorem jsonString_roundTrip :
    (∀ (text buffer : Bytes) (bufSize outSize : Nat), 0 ∉ text → (buffer ++ jsonString text).length < bufSize →
      text.length < outSize →
      ∃ written, jsonAppendString bufSize buffer text = buffer ++ written ∧
        parseJsonString outSize written = some (text, [])) ∧
    (∀ (key text : Bytes) (outSize : Nat), key ≠ [] → 0 ∉ key → key.length < 128 → 0 ∉ text → text.length < outSize →
      jsonGetStringField (fieldObject key text) key outSize = some text) ∧
    ∀ (literal text rest : Bytes) (outSize bufSize : Nat), parseJsonString outSize literal = some (text, rest) →
      (jsonString text).length < bufSize →
      parseJsonString outSize (jsonAppendString bufSize [] text) = some (text, []) := by
  refine ⟨?_, ?_, ?_⟩
  · intro text buffer bufSize outSize hnul hbuf hfits
    refine ⟨jsonString text, jsonAppendString_fits hbuf, ?_⟩
    have hread := parseJsonString_jsonString hnul hfits []
    rwa [List.append_nil] at hread
  · intro key text outSize hkey hkeyNul hkeyFits hnul hfits
    exact jsonGetStringField_fieldObject hkey hkeyNul hkeyFits hnul hfits
  · intro literal text rest outSize bufSize h hbuf
    obtain ⟨-, cs, -, hread⟩ := parseJsonString_eq_some.1 h
    obtain ⟨hnul, hfits⟩ := readString_bounds hread
    rw [jsonAppendString_fits (by rwa [List.nil_append]), List.nil_append]
    have hagain := parseJsonString_jsonString hnul hfits []
    rwa [List.append_nil] at hagain

/-- A quote, a control and a letter, by each of the ways. -/
theorem jsonString_roundTrip_quote :
    (∃ written, jsonAppendString 64 (lit "x") [0x22, 0x01, 0x61] = lit "x" ++ written ∧
      parseJsonString 8 written = some ([0x22, 0x01, 0x61], [])) ∧
    jsonGetStringField (fieldObject (lit "k") [0x22, 0x01, 0x61]) (lit "k") 8 = some [0x22, 0x01, 0x61] ∧
    parseJsonString 8 (jsonAppendString 64 [] [0x22, 0x01, 0x61]) = some ([0x22, 0x01, 0x61], []) :=
  ⟨jsonString_roundTrip.1 _ _ 64 8 (by decide) (by decide) (by decide),
    jsonString_roundTrip.2.1 _ _ 8 (by decide) (by decide) (by decide) (by decide) (by decide),
    jsonString_roundTrip.2.2 (lit "\"\\\"\\u0001a\"") _ [] 8 64 (by decide) (by decide)⟩

end Tnt
