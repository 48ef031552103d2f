import Tnt.Common
/-!
# Strings of JSON, written and read (`json_text.c`)

The writer appends a string to a buffer as far as that has room. The reader finds
the string fields of an object: a cursor is the rest of the text it points into. The loops take a bound for the
number of their rounds, and every round moves the cursor, so that the length of
the text is enough.
-/
open BaseLib

namespace Tnt

/-! ## Writing -/

/-- A digit of `%x`. -/
def hexDigit (n : UInt8) : UInt8 := if n < 10 then 0x30 + n else 0x57 + n

/-- What `tnt_json_append_string` writes for a byte of the text. -/
def jsonEscape (c : UInt8) : Bytes :=
  if c = 0x5C then lit "\\\\"
  else if c = 0x22 then lit "\\\""
  else if c = 0x08 then lit "\\b"
  else if c = 0x0C then lit "\\f"
  else if c = 0x0A then lit "\\n"
  else if c = 0x0D then lit "\\r"
  else if c = 0x09 then lit "\\t"
  else if c < 0x20 then lit "\\u00" ++ [hexDigit (c / 16), hexDigit (c % 16)]
  else [c]

/-- The loop of `tnt_json_append_string`, which ends when the buffer is full. -/
def jsonAppendLoop (bufSize : Nat) : Bytes → Bytes → Bytes
  | buffer, [] => buffer
  | buffer, c :: p =>
    if buffer.length < bufSize - 1 then jsonAppendLoop bufSize (bufferAppend bufSize buffer (jsonEscape c)) p
    else buffer

/-- `tnt_json_append_string` -/
def jsonAppendString (bufSize : Nat) (buffer text : Bytes) : Bytes :=
  bufferAppend bufSize (jsonAppendLoop bufSize (bufferAppend bufSize buffer [0x22]) text) [0x22]

/-- The string of JSON that a text becomes. -/
def jsonString (text : Bytes) : Bytes := 0x22 :: text.flatMap jsonEscape ++ [0x22]

theorem jsonAppendLoop_take (bufSize : Nat) (buffer text : Bytes) :
    jsonAppendLoop bufSize (buffer.take (bufSize - 1)) text =
      (buffer ++ text.flatMap jsonEscape).take (bufSize - 1) := by
  induction text generalizing buffer with
  | nil => rw [jsonAppendLoop, List.flatMap_nil, List.append_nil]
  | cons c p ih =>
    rw [jsonAppendLoop, bufferAppend_take, ih, List.flatMap_cons, List.append_assoc]
    split
    · rfl
    · rename_i hfull
      rw [List.length_take, Nat.not_lt, Nat.le_min] at hfull
      rw [List.take_append_of_le_length hfull.2]

/-- The writer appends the string as far as it fits. -/
theorem jsonAppendString_take (bufSize : Nat) (buffer text : Bytes) :
    jsonAppendString bufSize (buffer.take (bufSize - 1)) text = (buffer ++ jsonString text).take (bufSize - 1) := by
  unfold jsonAppendString
  rw [bufferAppend_take, jsonAppendLoop_take, bufferAppend_take]
  simp only [jsonString, List.cons_append, List.append_assoc, List.nil_append]

/-- Outside the controls an escape has one letter, and so does that of a tab. -/
theorem length_jsonEscape_text (c : UInt8) (h : 0x20 ≤ c ∨ c = 0x09) : (jsonEscape c).length ≤ 2 := by
  revert c
  exact forall_byte (by decide +kernel)

/-! ## Reading -/

def skipWs (p : Bytes) : Bytes := p.dropWhile isSpace

/-- `hex_value` -/
def hexValue (c : UInt8) : Option Nat :=
  if 0x30 ≤ c && c ≤ 0x39 then some (c.toNat - 0x30)
  else if 0x61 ≤ c && c ≤ 0x66 then some (c.toNat - 0x61 + 10)
  else if 0x41 ≤ c && c ≤ 0x46 then some (c.toNat - 0x41 + 10)
  else none

/-- `parse_hex4` -/
def parseHex4 (p : Bytes) : Option Nat := do
  let a ← hexValue (byteAt p 0)
  let b ← hexValue (byteAt p 1)
  let c ← hexValue (byteAt p 2)
  let d ← hexValue (byteAt p 3)
  return a <<< 12 ||| b <<< 8 ||| c <<< 4 ||| d

/-- The bytes that `append_decoded_codepoint` writes. -/
def codepointBytes (cp : Nat) : Bytes :=
  let tail (shift : Nat) := UInt8.ofNat (0x80 ||| cp >>> shift &&& 0x3F)
  if cp ≤ 0x7F then [UInt8.ofNat cp]
  else if cp ≤ 0x7FF then [UInt8.ofNat (0xC0 ||| cp >>> 6), tail 0]
  else if cp ≤ 0xFFFF then [UInt8.ofNat (0xE0 ||| cp >>> 12), tail 6, tail 0]
  else [UInt8.ofNat (0xF0 ||| cp >>> 18), tail 12, tail 6, tail 0]

/-- `append_decoded_codepoint` -/
def appendDecodedCodepoint (outSize : Nat) (out : Bytes) (cp : Nat) : Option Bytes :=
  if cp = 0 ∨ cp > 0x10FFFF ∨ (cp ≥ 0xD800 ∧ cp ≤ 0xDFFF) then none
  else if out.length + (codepointBytes cp).length ≥ outSize then none
  else some (out ++ codepointBytes cp)

/-- `append_byte` -/
def appendByte (outSize : Nat) (out : Bytes) (c : UInt8) : Option Bytes :=
  if out.length + 1 ≥ outSize then none else some (out ++ [c])

/-- The byte that a one-letter escape stands for. -/
def escapedByte (esc : UInt8) : Option UInt8 :=
  if esc = 0x22 ∨ esc = 0x5C ∨ esc = 0x2F then some esc
  else if esc = 0x62 then some 0x08
  else if esc = 0x66 then some 0x0C
  else if esc = 0x6E then some 0x0A
  else if esc = 0x72 then some 0x0D
  else if esc = 0x74 then some 0x09
  else none

/-- A `\u` escape, with `p` behind the `u`: the codepoint and the rest. -/
def parseUnicodeEscape (p : Bytes) : Option (Nat × Bytes) := do
  let cp ← parseHex4 p
  let p := p.drop 4
  if 0xD800 ≤ cp ∧ cp ≤ 0xDBFF then
    if byteAt p 0 ≠ 0x5C ∨ byteAt p 1 ≠ 0x75 then none
    else
      let low ← parseHex4 (p.drop 2)
      if low < 0xDC00 ∨ low > 0xDFFF then none
      else some (0x10000 + (cp - 0xD800) <<< 10 + (low - 0xDC00), p.drop 6)
  else if 0xDC00 ≤ cp ∧ cp ≤ 0xDFFF then none
  else some (cp, p)

/-- The loop of `parse_json_string`: what it has written and the cursor behind the quote. -/
def parseJsonStringLoop (outSize : Nat) : Nat → Bytes → Bytes → Option (Bytes × Bytes)
  | 0, _, _ => none
  | _, _, [] => none
  | rounds + 1, out, c :: p =>
    if c = 0x22 then some (out, p)
    else if c < 0x20 then none
    else if c ≠ 0x5C then (appendByte outSize out c).bind (parseJsonStringLoop outSize rounds · p)
    else
      match p with
      | [] => none
      | esc :: p =>
        if esc = 0x75 then
          (parseUnicodeEscape p).bind fun (cp, p) =>
            (appendDecodedCodepoint outSize out cp).bind (parseJsonStringLoop outSize rounds · p)
        else
          (escapedByte esc).bind fun b => (appendByte outSize out b).bind (parseJsonStringLoop outSize rounds · p)

/-- `parse_json_string` -/
def parseJsonString (outSize : Nat) (cursor : Bytes) : Option (Bytes × Bytes) :=
  match cursor with
  | [] => none
  | c :: p => if c ≠ 0x22 ∨ outSize = 0 then none else parseJsonStringLoop outSize (p.length + 1) [] p

def skipJsonStringLoop : Nat → Bytes → Option Bytes
  | 0, _ => none
  | _, [] => none
  | rounds + 1, c :: p =>
    if c = 0x22 then some p
    else if c < 0x20 then none
    else if c = 0x5C then
      match p with
      | [] => none
      | esc :: p' =>
        if esc = 0x75 then (parseHex4 p').bind fun _ => skipJsonStringLoop rounds (p.drop 5)
        else skipJsonStringLoop rounds p'
    else skipJsonStringLoop rounds p

/-- `skip_json_string` -/
def skipJsonString (cursor : Bytes) : Option Bytes :=
  match cursor with
  | [] => none
  | c :: p => if c ≠ 0x22 then none else skipJsonStringLoop (p.length + 1) p

/-- The loop of `skip_json_value` over an object or an array. It looks at the byte behind a
skipped string in the same round. -/
def skipNested : Nat → Int → Bytes → Option Bytes
  | 0, _, _ => none
  | rounds + 1, depth, p =>
    (if byteAt p 0 = 0x22 then skipJsonString p else some p).bind fun p =>
      match p with
      | [] => none
      | c :: p =>
        let depth :=
          if c = 0x7B ∨ c = 0x5B then depth + 1
          else if c = 0x7D ∨ c = 0x5D then depth - 1
          else depth
        if depth > 0 then skipNested rounds depth p else some p

/-- `skip_json_value` -/
def skipJsonValue (cursor : Bytes) : Option Bytes :=
  let p := skipWs cursor
  if byteAt p 0 = 0x22 then skipJsonString p
  else if byteAt p 0 = 0x7B ∨ byteAt p 0 = 0x5B then skipNested (p.length + 1) 0 p
  else some (p.dropWhile fun c => c != 0x2C && c != 0x7D && c != 0x5D)

/-- The loop of `tnt_json_get_string_field` over the members, with the value found so far. -/
def getStringFieldLoop (key : Bytes) (outSize : Nat) : Nat → Option Bytes → Bytes → Option Bytes
  | 0, _, _ => none
  | rounds + 1, found, p =>
    let p := skipWs p
    if byteAt p 0 = 0x7D then none
    else
      (parseJsonString 128 p).bind fun (parsedKey, p) =>
        match skipWs p with
        | [] => none
        | c :: p =>
          if c ≠ 0x3A then none
          else
            let p := skipWs p
            (if parsedKey = key then (parseJsonString outSize p).map fun (out, p) => (some out, p)
              else (skipJsonValue p).map fun p => (found, p)).bind fun (found, p) =>
              match skipWs p with
              | [] => none
              | c :: p =>
                if c = 0x2C then getStringFieldLoop key outSize rounds found p
                else if c = 0x7D then found
                else none

/-- `tnt_json_get_string_field` -/
def jsonGetStringField (json key : Bytes) (outSize : Nat) : Option Bytes :=
  if key = [] ∨ outSize = 0 then none
  else
    match skipWs json with
    | [] => none
    | c :: p => if c ≠ 0x7B then none else getStringFieldLoop key outSize (p.length + 1) none p

end Tnt
