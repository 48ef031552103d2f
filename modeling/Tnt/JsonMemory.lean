import Tnt.Builders
import Tnt.JsonMalformed
import Tnt.Utf8Encoding
/-!
# The reader of JSON in memory (`json_text.c`)

What is skipped ends where a value does. In memory, a cursor is an index into a text that ends
with the NUL, and a string is written into an array behind a position: a read or a
write outside gives `none`, and so does a loop that takes more rounds than there are bytes
from its cursor to the NUL. `json_reader_in_bounds` says that none of this happens, and the
functions on the rest of the text are what the code computes.
-/
open BaseLib BaseLib.Json

namespace Tnt

/-! ## Skipping -/

/-- Of every value, `skip_json_value` passes the text and some of the spaces behind it, and `skip_json_string`
passes what `parse_json_string` reads. -/
theorem skip_finds_ends :
    (∀ (v : Value) (after : Spaces) (c : UInt8) (rest : Bytes), c = 0x2C ∨ c = 0x7D ∨ c = 0x5D →
      ∃ passed left, after.bytes = passed ++ left ∧
        skipJsonValue (v.render ++ (after.bytes ++ c :: rest)) = some (left ++ c :: rest)) ∧
    ∀ outSize json text rest, parseJsonString outSize json = some (text, rest) → skipJsonString json = some rest := by
  constructor
  · intro v after c rest hc
    have hend : isEnd c = true := by rcases hc with rfl | rfl | rfl <;> rfl
    obtain ⟨left, ⟨passed, hafter⟩, hskip⟩ := skipJsonValue_render v after.space hend rest
    exact ⟨passed, left, hafter.symm, hskip⟩
  · intro outSize json text rest h
    obtain ⟨-, cs, rfl, -⟩ := parseJsonString_eq_some.1 h
    exact skipJsonString_quoted cs rest

/-! ## The functions on memory -/

/-- `out[i] = c` -/
def write (out : Bytes) (i : Nat) (c : UInt8) : Option Bytes := if i < out.length then some (out.set i c) else none

/-- `memcpy(out + i, bytes, len)` -/
def writeBytes (out : Bytes) (i : Nat) : Bytes → Option Bytes
  | [] => some out
  | c :: bytes => do
    let out ← write out i c
    writeBytes out (i + 1) bytes

section Reading
variable (mem : Bytes)

/-- The rounds that a loop from `p` on can take. -/
def roundsFrom (p : Nat) : Nat := mem.length - p

/-- A loop over bytes while they satisfy `q`. -/
def passAt (q : UInt8 → Bool) : Nat → Nat → Option Nat
  | 0, _ => none
  | rounds + 1, p => do
    let c ← mem[p]?
    if q c then passAt q rounds (p + 1) else return p

/-- `skip_ws` -/
def skipWsAt (p : Nat) : Option Nat := passAt mem isSpace (roundsFrom mem p) p

/-- The loop of `parse_hex4` over `p[i]`. -/
def hexLoop (p : Nat) : List Nat → Nat → Option (Option Nat)
  | [], cp => some (some cp)
  | i :: is, cp => do
    let c ← mem[p + i]?
    match hexValue c with
    | none => return none
    | some v => hexLoop p is (cp <<< 4 ||| v)

/-- `parse_hex4` -/
def parseHex4At (p : Nat) : Option (Option Nat) := hexLoop mem p [0, 1, 2, 3] 0

/-- A `\u` escape in `parse_json_string`, with `p` behind the `u`. -/
def unicodeEscapeAt (p : Nat) : Option (Option (Nat × Nat)) := do
  match ← parseHex4At mem p with
  | none => return none
  | some cp =>
    let p := p + 4
    if 0xD800 ≤ cp ∧ cp ≤ 0xDBFF then
      let c ← mem[p]?
      if c ≠ 0x5C then return none
      let c ← mem[p + 1]?
      if c ≠ 0x75 then return none
      match ← parseHex4At mem (p + 2) with
      | none => return none
      | some low =>
        if low < 0xDC00 ∨ low > 0xDFFF then return none
        return some (0x10000 + (cp - 0xD800) <<< 10 + (low - 0xDC00), p + 6)
    else if 0xDC00 ≤ cp ∧ cp ≤ 0xDFFF then return none
    else return some (cp, p)

/-- The loop of `skip_json_string` -/
def skipStringLoop : Nat → Nat → Option (Option Nat)
  | 0, _ => none
  | rounds + 1, p => do
    let c ← mem[p]?
    if c = 0 then return none
    let p := p + 1
    if c = 0x22 then return some p
    if c < 0x20 then return none
    if c = 0x5C then
      let esc ← mem[p]?
      if esc = 0x75 then
        match ← parseHex4At mem (p + 1) with
        | none => return none
        | some _ => skipStringLoop rounds (p + 5)
      else if esc ≠ 0 then skipStringLoop rounds (p + 1)
      else return none
    else skipStringLoop rounds p

/-- `skip_json_string` -/
def skipJsonStringAt (p : Nat) : Option (Option Nat) := do
  let c ← mem[p]?
  if c ≠ 0x22 then return none
  skipStringLoop mem (roundsFrom mem (p + 1)) (p + 1)

/-- The loop of `skip_json_value` over an object or an array. -/
def skipNestedAt : Nat → Int → Nat → Option (Option Nat)
  | 0, _, _ => none
  | rounds + 1, depth, p => do
    let c ← mem[p]?
    let skipped : Option (Option Nat) := if c = 0x22 then skipJsonStringAt mem p else some (some p)
    match ← skipped with
    | none => return none
    | some p =>
      let c ← mem[p]?
      if c = 0 then return none
      let depth :=
        if c = 0x7B ∨ c = 0x5B then depth + 1
        else if c = 0x7D ∨ c = 0x5D then depth - 1
        else depth
      if depth > 0 then skipNestedAt rounds depth (p + 1) else return some (p + 1)

/-- `skip_json_value` -/
def skipJsonValueAt (p : Nat) : Option (Option Nat) := do
  let p ← skipWsAt mem p
  let c ← mem[p]?
  if c = 0x22 then skipJsonStringAt mem p
  else if c = 0x7B ∨ c = 0x5B then skipNestedAt mem (roundsFrom mem p) 0 p
  else
    let p ← passAt mem (fun c => c != 0 && c != 0x2C && c != 0x7D && c != 0x5D) (roundsFrom mem p) p
    return some p

/-- `append_byte` -/
def appendByteAt (outSize : Nat) (out : OutBuffer) (c : UInt8) : Option (Bool × OutBuffer) :=
  if outSize = 0 ∨ out.pos + 1 ≥ outSize then some (false, out)
  else do
    let mem ← write out.mem out.pos c
    let pos := out.pos + 1
    let mem ← write mem pos 0
    return (true, ⟨mem, pos⟩)

/-- `append_decoded_codepoint` -/
def appendDecodedCodepointAt (outSize : Nat) (out : OutBuffer) (cp : Nat) : Option (Bool × OutBuffer) :=
  if outSize = 0 ∨ cp = 0 ∨ cp > 0x10FFFF ∨ (cp ≥ 0xD800 ∧ cp ≤ 0xDFFF) then some (false, out)
  else
    let bytes := codepointBytes cp
    if out.pos + bytes.length ≥ outSize then some (false, out)
    else do
      let mem ← writeBytes out.mem out.pos bytes
      let pos := out.pos + bytes.length
      let mem ← write mem pos 0
      return (true, ⟨mem, pos⟩)

/-- The loop of `parse_json_string` -/
def parseStringLoop (outSize : Nat) : Nat → Nat → OutBuffer → Option (Option Nat × OutBuffer)
  | 0, _, _ => none
  | rounds + 1, p, out => do
    let c ← mem[p]?
    if c = 0 then return (none, out)
    let p := p + 1
    if c = 0x22 then return (some p, out)
    if c < 0x20 then return (none, out)
    if c ≠ 0x5C then
      let (ok, out) ← appendByteAt outSize out c
      if ok then parseStringLoop outSize rounds p out else return (none, out)
    else
      let esc ← mem[p]?
      let p := p + 1
      if esc = 0x75 then
        match ← unicodeEscapeAt mem p with
        | none => return (none, out)
        | some (cp, p) =>
          let (ok, out) ← appendDecodedCodepointAt outSize out cp
          if ok then parseStringLoop outSize rounds p out else return (none, out)
      else
        match escapedByte esc with
        | none => return (none, out)
        | some b =>
          let (ok, out) ← appendByteAt outSize out b
          if ok then parseStringLoop outSize rounds p out else return (none, out)

/-- `parse_json_string`: the cursor behind the string, and the array that it was written to. -/
def parseJsonStringAt (outSize : Nat) (p : Nat) (out : Bytes) : Option (Option Nat × Bytes) := do
  let c ← mem[p]?
  if c ≠ 0x22 ∨ outSize = 0 then return (none, out)
  let out ← write out 0 0
  let (next, out) ← parseStringLoop mem outSize (roundsFrom mem (p + 1)) (p + 1) ⟨out, 0⟩
  return (next, out.mem)

/-- `strcmp(s, t) == 0`, where `s` is an array and there has to be a NUL in it. -/
def strcmpAt (s t : Bytes) : Option Bool := if 0 ∈ s then some (cstr s == t) else none

/-- The loop of `tnt_json_get_string_field`. What is in `parsed_key` when a round begins is left open. -/
def stringFieldLoop (key : Bytes) (outSize : Nat) (scratch : Nat → Bytes) :
    Nat → Nat → Bool → Bytes → Option (Bool × Bytes)
  | 0, _, _, _ => none
  | rounds + 1, p, found, out => do
    let p ← skipWsAt mem p
    let c ← mem[p]?
    if c = 0x7D then return (false, out)
    if c ≠ 0x22 then return (false, out)
    let (next, parsedKey) ← parseJsonStringAt mem 128 p (scratch rounds)
    match next with
    | none => return (false, out)
    | some p =>
      let p ← skipWsAt mem p
      let c ← mem[p]?
      if c ≠ 0x3A then return (false, out)
      let p ← skipWsAt mem (p + 1)
      let same ← strcmpAt parsedKey key
      let c ← mem[p]?
      let value : Option (Option Nat × Bool × Bytes) :=
        if same then
          if c ≠ 0x22 then some (none, found, out)
          else (parseJsonStringAt mem outSize p out).map fun (next, out) => (next, true, out)
        else (skipJsonValueAt mem p).map fun next => (next, found, out)
      let (next, found, out) ← value
      match next with
      | none => return (false, out)
      | some p =>
        let p ← skipWsAt mem p
        let c ← mem[p]?
        if c = 0x2C then stringFieldLoop key outSize scratch rounds (p + 1) found out
        else if c = 0x7D then return (found, out)
        else return (false, out)

/-- `tnt_json_get_string_field`: what it returns, and the array behind it. -/
def jsonGetStringFieldAt (key : Bytes) (outSize : Nat) (out : Bytes) (scratch : Nat → Bytes) :
    Option (Bool × Bytes) :=
  if key = [] ∨ outSize = 0 then some (false, out)
  else do
    let out ← write out 0 0
    let p ← skipWsAt mem 0
    let c ← mem[p]?
    if c ≠ 0x7B then return (false, out)
    stringFieldLoop mem key outSize scratch (roundsFrom mem (p + 1)) (p + 1) false out

end Reading

/-! ## What is read -/

section
variable {json q : Bytes}

/-- The index of a rest of the text. -/
def indexOf (json q : Bytes) : Nat := json.length - q.length

theorem read_at (h : q <:+ json) {i : Nat} (hi : i ≤ q.length) :
    (json ++ [0])[indexOf json q + i]? = some (byteAt q i) := by
  obtain ⟨front, rfl⟩ := h
  rw [indexOf, List.length_append, Nat.add_sub_cancel]
  exact read_terminated hi

theorem read_head (h : q <:+ json) : (json ++ [0])[indexOf json q]? = some (byteAt q 0) :=
  read_at h (Nat.zero_le _)

theorem indexOf_cons {c : UInt8} (h : c :: q <:+ json) : indexOf json (c :: q) + 1 = indexOf json q := by
  have := h.length_le
  simp only [indexOf, List.length_cons] at this ⊢
  omega

theorem indexOf_drop {k : Nat} (h : q <:+ json) (hk : k ≤ q.length) : indexOf json q + k = indexOf json (q.drop k) := by
  have := h.length_le
  rw [indexOf, indexOf, List.length_drop]
  omega

theorem roundsFrom_eq (h : q <:+ json) : roundsFrom (json ++ [0]) (indexOf json q) = q.length + 1 := by
  have := h.length_le
  rw [roundsFrom, indexOf, List.length_append, List.length_singleton]
  omega

theorem suffix_of_cons {c : UInt8} (h : c :: q <:+ json) : q <:+ json := (List.suffix_cons c q).trans h

/-- Inside the text there is no NUL. -/
theorem head_ne (hnul : 0 ∉ json) {c : UInt8} (h : c :: q <:+ json) : c ≠ 0 :=
  ne_of_mem_of_not_mem (h.subset List.mem_cons_self) hnul

/-- A loop that the NUL ends passes what it would in the text. -/
theorem passAt_eq {stays passes : UInt8 → Bool} (h0 : stays 0 = false) (hsame : ∀ c, c ≠ 0 → stays c = passes c)
    (hnul : 0 ∉ json) (h : q <:+ json) :
    passAt (json ++ [0]) stays (q.length + 1) (indexOf json q) = some (indexOf json (q.dropWhile passes)) := by
  induction q with
  | nil =>
    rw [passAt, read_head h]
    simp [byteAt, h0]
  | cons c q ih =>
    rw [passAt, read_head h]
    simp only [Option.bind_eq_bind, Option.bind_some]
    rw [byteAt_cons, List.dropWhile_cons, indexOf_cons h, hsame c (head_ne hnul h)]
    split
    · exact ih (suffix_of_cons h)
    · rfl

theorem skipWsAt_eq (hnul : 0 ∉ json) (h : q <:+ json) :
    skipWsAt (json ++ [0]) (indexOf json q) = some (indexOf json (skipWs q)) := by
  rw [skipWsAt, roundsFrom_eq h]
  exact passAt_eq rfl (fun _ _ => rfl) hnul h

theorem skipWs_suffix (p : Bytes) : skipWs p <:+ p := List.dropWhile_suffix _

/-- The byte behind the spaces. -/
theorem next_byte {α : Type} (hnul : 0 ∉ json) (h : q <:+ json) (go : Nat → UInt8 → Option α) :
    ((skipWsAt (json ++ [0]) (indexOf json q)).bind fun p => (json ++ [0])[p]?.bind fun c => go p c) =
      go (indexOf json (skipWs q)) (byteAt (skipWs q) 0) := by
  rw [skipWsAt_eq hnul h, Option.bind_some, read_head ((skipWs_suffix q).trans h), Option.bind_some]

theorem hexLoop_cons (h : q <:+ json) {i : Nat} (hi : i ≤ q.length) (is : List Nat) (cp : Nat) :
    hexLoop (json ++ [0]) (indexOf json q) (i :: is) cp =
      match hexValue (byteAt q i) with
      | none => some none
      | some v => hexLoop (json ++ [0]) (indexOf json q) is (cp <<< 4 ||| v) := by
  rw [hexLoop, read_at h hi]
  rfl

/-- The loop stops at the NUL, which is no digit. -/
theorem parseHex4At_eq (h : q <:+ json) : parseHex4At (json ++ [0]) (indexOf json q) = some (parseHex4 q) := by
  unfold parseHex4At parseHex4
  rw [hexLoop_cons h (Nat.zero_le _)]
  cases ha : hexValue (byteAt q 0) with
  | none => rfl
  | some a =>
    dsimp only
    rw [hexLoop_cons h (hexValue_byteAt ha).1]
    cases hb : hexValue (byteAt q 1) with
    | none => rfl
    | some b =>
      dsimp only
      rw [hexLoop_cons h (hexValue_byteAt hb).1]
      cases hc : hexValue (byteAt q 2) with
      | none => rfl
      | some c =>
        dsimp only
        rw [hexLoop_cons h (hexValue_byteAt hc).1]
        cases hd : hexValue (byteAt q 3) with
        | none => rfl
        | some d =>
          simp only [hexLoop, Nat.zero_shiftLeft, Nat.zero_or, Nat.shiftLeft_or_distrib, ← Nat.shiftLeft_add]
          rfl

theorem length_of_parseHex4 {n : Nat} (h : parseHex4 q = some n) : 4 ≤ q.length := by
  obtain ⟨u, rest, rfl, -⟩ := parseHex4_eq_some h
  simp

theorem lt_length_of_byteAt {i : Nat} (h : byteAt q i ≠ 0) : i < q.length := by
  by_contra hi
  apply h
  rw [byteAt, List.getD_eq_getElem?_getD, List.getElem?_eq_none (Nat.not_lt.1 hi)]
  rfl

theorem unicodeEscapeAt_eq (h : q <:+ json) : unicodeEscapeAt (json ++ [0]) (indexOf json q) =
    some ((parseUnicodeEscape q).map fun (cp, rest) => (cp, indexOf json rest)) := by
  unfold unicodeEscapeAt parseUnicodeEscape
  rw [parseHex4At_eq h]
  cases hcp : parseHex4 q with
  | none => rfl
  | some cp =>
    have hq : q.drop 4 <:+ json := (List.drop_suffix 4 q).trans h
    simp only [Option.bind_eq_bind, Option.bind_some]
    rw [indexOf_drop h (length_of_parseHex4 hcp)]
    generalize q.drop 4 = q at hq
    by_cases hhigh : 0xD800 ≤ cp ∧ cp ≤ 0xDBFF
    · -- The low surrogate is looked for byte by byte.
      rw [if_pos hhigh, if_pos hhigh, read_head hq]
      simp only [Option.bind_some]
      by_cases h0 : byteAt q 0 = 0x5C
      · have hlen : 1 ≤ q.length := lt_length_of_byteAt (by rw [h0]; decide)
        rw [if_neg (not_not.2 h0), read_at hq hlen]
        simp only [Option.bind_some]
        by_cases h1 : byteAt q 1 = 0x75
        · have hlen : 2 ≤ q.length := lt_length_of_byteAt (by rw [h1]; decide)
          rw [if_neg (not_not.2 h1), if_neg (not_or.2 ⟨not_not.2 h0, not_not.2 h1⟩), indexOf_drop hq hlen,
            parseHex4At_eq ((List.drop_suffix 2 q).trans hq)]
          cases hlow : parseHex4 (q.drop 2) with
          | none => rfl
          | some low =>
            have hlen := length_of_parseHex4 hlow
            rw [List.length_drop] at hlen
            rw [indexOf_drop hq (show 6 ≤ q.length by omega)]
            simp only [Option.bind_some]
            split <;> rfl
        · rw [if_pos h1, if_pos (.inr h1)]
          rfl
      · rw [if_pos h0, if_pos (.inl h0)]
        rfl
    · rw [if_neg hhigh, if_neg hhigh]
      split <;> rfl

theorem parseUnicodeEscape_suffix {p rest : Bytes} {cp : Nat} (h : parseUnicodeEscape p = some (cp, rest)) :
    rest <:+ p := by
  obtain ⟨unit, -, h⟩ := Option.bind_eq_some_iff.1 h
  have hdrop : p.drop 4 <:+ p := List.drop_suffix 4 p
  split at h
  · dsimp only at h
    split at h
    · cases h
    · obtain ⟨low, -, h⟩ := Option.bind_eq_some_iff.1 h
      split at h
      · cases h
      · obtain ⟨-, rfl⟩ := Prod.mk.inj (Option.some.inj h)
        exact (List.drop_suffix 6 _).trans hdrop
  · split at h
    · cases h
    · cases h
      exact hdrop

theorem skipStringLoop_eq {rounds : Nat} (hnul : 0 ∉ json) (h : q <:+ json) (hrounds : q.length < rounds) :
    skipStringLoop (json ++ [0]) rounds (indexOf json q) =
      some ((skipJsonStringLoop rounds q).map (indexOf json)) := by
  induction rounds generalizing q with
  | zero => omega
  | succ rounds ih =>
    rw [skipStringLoop, read_head h]
    simp only [Option.bind_eq_bind, Option.bind_some]
    cases q with
    | nil => rfl
    | cons c p =>
      have hp := suffix_of_cons h
      rw [List.length_cons] at hrounds
      rw [byteAt_cons, if_neg (head_ne hnul h), indexOf_cons h, skipJsonStringLoop.eq_def]
      dsimp only
      by_cases hquote : c = 0x22
      · rw [if_pos hquote, if_pos hquote]
        rfl
      rw [if_neg hquote, if_neg hquote]
      by_cases hcontrol : c < 0x20
      · rw [if_pos hcontrol, if_pos hcontrol]
        rfl
      rw [if_neg hcontrol, if_neg hcontrol]
      by_cases hslash : c = 0x5C
      · rw [if_pos hslash, if_pos hslash, read_head hp]
        simp only [Option.bind_some]
        cases p with
        | nil => rfl
        | cons esc p' =>
          have hp' := suffix_of_cons hp
          rw [byteAt_cons, indexOf_cons hp]
          rw [List.length_cons] at hrounds
          dsimp only
          by_cases hu : esc = 0x75
          · rw [if_pos hu, if_pos hu, parseHex4At_eq hp']
            cases hhex : parseHex4 p' with
            | none => rfl
            | some unit =>
              have hlen := length_of_parseHex4 hhex
              simp only [Option.bind_some]
              rw [indexOf_drop hp (by rw [List.length_cons]; omega)]
              exact ih ((List.drop_suffix 5 _).trans hp) (by rw [List.length_drop, List.length_cons]; omega)
          · rw [if_neg hu, if_neg hu, if_pos (head_ne hnul hp)]
            exact ih hp' (by omega)
      · rw [if_neg hslash, if_neg hslash]
        exact ih hp (by omega)

theorem skipJsonStringAt_eq (hnul : 0 ∉ json) (h : q <:+ json) : skipJsonStringAt (json ++ [0]) (indexOf json q) =
    some ((skipJsonString q).map (indexOf json)) := by
  unfold skipJsonStringAt skipJsonString
  rw [read_head h]
  simp only [Option.bind_eq_bind, Option.bind_some]
  cases q with
  | nil => rfl
  | cons c p =>
    have hp := suffix_of_cons h
    rw [byteAt_cons, indexOf_cons h, roundsFrom_eq hp]
    dsimp only
    split
    · rfl
    · exact skipStringLoop_eq hnul hp (Nat.lt_succ_self _)

theorem skipNestedAt_eq {rounds : Nat} {depth : Int} (hnul : 0 ∉ json) (h : q <:+ json) (hrounds : q.length < rounds) :
    skipNestedAt (json ++ [0]) rounds depth (indexOf json q) =
      some ((skipNested rounds depth q).map (indexOf json)) := by
  induction rounds generalizing q depth with
  | zero => omega
  | succ rounds ih =>
    have hstring : (if byteAt q 0 = 0x22 then skipJsonStringAt (json ++ [0]) (indexOf json q)
        else some (some (indexOf json q))) =
          some ((if byteAt q 0 = 0x22 then skipJsonString q else some q).map (indexOf json)) := by
      split
      · exact skipJsonStringAt_eq hnul h
      · rfl
    rw [skipNestedAt, read_head h, skipNested_succ]
    simp only [Option.bind_eq_bind, Option.bind_some]
    rw [hstring]
    cases hq : (if byteAt q 0 = 0x22 then skipJsonString q else some q) with
    | none => rfl
    | some p =>
      have hsuffix := skipString_suffix hq
      have hp := hsuffix.trans h
      have hlen := hsuffix.length_le
      simp only [Option.bind_some, Option.map_some]
      rw [read_head hp]
      simp only [Option.bind_some]
      cases p with
      | nil => rfl
      | cons c p =>
        rw [List.length_cons] at hlen
        rw [byteAt_cons, if_neg (head_ne hnul hp), indexOf_cons hp, roundBehind]
        show (if depthAfter depth c > 0 then _ else _) = _
        split
        · exact ih (suffix_of_cons hp) (by omega)
        · rfl

theorem skipJsonValueAt_eq (hnul : 0 ∉ json) (h : q <:+ json) : skipJsonValueAt (json ++ [0]) (indexOf json q) =
    some ((skipJsonValue q).map (indexOf json)) := by
  have hws := (skipWs_suffix q).trans h
  unfold skipJsonValueAt skipJsonValue
  simp only [Option.bind_eq_bind]
  rw [next_byte hnul h, roundsFrom_eq hws]
  split
  · exact skipJsonStringAt_eq hnul hws
  split
  · exact skipNestedAt_eq hnul hws (Nat.lt_succ_self _)
  · rw [passAt_eq rfl (fun c hc => by rw [bne_iff_ne.2 hc, Bool.true_and]) hnul hws]
    rfl

end

/-! ## What is written -/

section
variable {outSize : Nat} {b : OutBuffer}

theorem writeBytes_eq {mem bytes : Bytes} {i : Nat} (h : i + bytes.length ≤ mem.length) :
    writeBytes mem i bytes = some (store mem i bytes) := by
  induction bytes generalizing mem i with
  | nil => simp [writeBytes, store]
  | cons c bytes ih =>
    rw [List.length_cons] at h
    have hi : i < mem.length := by omega
    have hset : mem.set i c = mem.take i ++ c :: mem.drop (i + 1) := List.set_eq_take_append_cons_drop.trans (if_pos hi)
    have hfront : (mem.take i ++ [c]).length = i + 1 := by
      rw [List.length_append, List.length_take, List.length_singleton]
      omega
    rw [writeBytes, write, if_pos hi]
    simp only [Option.bind_eq_bind, Option.bind_some]
    rw [ih (by rw [List.length_set]; omega), hset, List.append_cons, ← hfront, store_append, hfront, store,
      List.drop_drop, List.length_cons, Nat.add_assoc, Nat.add_comm 1]
    simp only [List.append_assoc, List.cons_append, List.nil_append]

theorem writeBytes_append (mem : Bytes) (i : Nat) (bytes more : Bytes) :
    writeBytes mem i (bytes ++ more) = (writeBytes mem i bytes).bind (writeBytes · (i + bytes.length) more) := by
  induction bytes generalizing mem i with
  | nil => rfl
  | cons c bytes ih =>
    rw [List.cons_append, writeBytes, writeBytes]
    simp only [Option.bind_eq_bind, Option.bind_assoc, ih, List.length_cons]
    rw [Nat.add_right_comm, Nat.add_assoc]

theorem writeBytes_singleton (mem : Bytes) (i : Nat) (c : UInt8) : writeBytes mem i [c] = write mem i c := by
  simp [writeBytes]

/-- The array holds the text that was read, if any, and a NUL behind it. -/
structure OutBuffer.Holds (outSize : Nat) (b : OutBuffer) (text : Option Bytes) : Prop where
  fits : b.Fits outSize
  terminated : b.Terminated
  text_eq : ∀ t, text = some t → b.text = t

/-- Nothing was added. -/
theorem OutBuffer.Holds.fail {text : Option Bytes} (h : b.Holds outSize text) : b.Holds outSize none :=
  ⟨h.fits, h.terminated, nofun⟩

/-- Some bytes are written behind the position, and then the NUL. -/
theorem OutBuffer.Holds.append {text : Option Bytes} (h : b.Holds outSize text) {bytes : Bytes} {pos : Nat}
    (hpos : b.pos + bytes.length = pos) (hroom : pos < outSize) :
    ∃ mem mem', writeBytes b.mem b.pos bytes = some mem ∧ write mem pos 0 = some mem' ∧
      Holds outSize ⟨mem', pos⟩ (some (b.text ++ bytes)) := by
  subst hpos
  have hwrote := wrote_store h.fits rfl hroom
  have hstore : writeBytes b.mem b.pos (bytes ++ [0]) = some (store b.mem b.pos (bytes ++ [0])) := by
    apply writeBytes_eq
    rw [h.fits.size, List.length_append, List.length_singleton]
    omega
  rw [writeBytes_append] at hstore
  obtain ⟨mem, hbytes, hnul⟩ := Option.bind_eq_some_iff.1 hstore
  rw [writeBytes_singleton] at hnul
  exact ⟨mem, _, hbytes, hnul, hwrote.fits, hwrote.terminated h.terminated,
    fun t ht => hwrote.text_eq.trans (Option.some.inj ht)⟩

theorem appendByteAt_eq {text : Option Bytes} (h : b.Holds outSize text) (c : UInt8) :
    ∃ b', appendByteAt outSize b c = some ((appendByte outSize b.text c).isSome, b') ∧
      b'.Holds outSize (appendByte outSize b.text c) := by
  have hlt := h.fits.pos_lt
  unfold appendByteAt appendByte
  rw [h.fits.length_text]
  by_cases hroom : b.pos + 1 ≥ outSize
  · rw [if_pos (.inr hroom), if_pos hroom]
    exact ⟨b, rfl, h.fail⟩
  · have hpos : b.pos + [c].length = b.pos + 1 := rfl
    obtain ⟨mem, mem', hbyte, hnul, hholds⟩ := h.append hpos (Nat.lt_of_not_le hroom)
    rw [writeBytes_singleton] at hbyte
    rw [if_neg (by omega), if_neg hroom, hbyte]
    simp only [Option.bind_eq_bind, Option.bind_some]
    rw [hnul]
    exact ⟨_, rfl, hholds⟩

theorem appendDecodedCodepointAt_eq {text : Option Bytes} (h : b.Holds outSize text) (cp : Nat) :
    ∃ b', appendDecodedCodepointAt outSize b cp = some ((appendDecodedCodepoint outSize b.text cp).isSome, b') ∧
      b'.Holds outSize (appendDecodedCodepoint outSize b.text cp) := by
  have hlt := h.fits.pos_lt
  unfold appendDecodedCodepointAt appendDecodedCodepoint
  rw [h.fits.length_text]
  by_cases hcp : cp = 0 ∨ cp > 0x10FFFF ∨ (cp ≥ 0xD800 ∧ cp ≤ 0xDFFF)
  · rw [if_pos (.inr hcp), if_pos hcp]
    exact ⟨b, rfl, h.fail⟩
  rw [if_neg (not_or.2 ⟨by omega, hcp⟩), if_neg hcp]
  dsimp only
  by_cases hroom : b.pos + (codepointBytes cp).length ≥ outSize
  · rw [if_pos hroom, if_pos hroom]
    exact ⟨b, rfl, h.fail⟩
  · obtain ⟨mem, mem', hbytes, hnul, hholds⟩ := h.append rfl (Nat.lt_of_not_le hroom)
    rw [if_neg hroom, if_neg hroom, hbytes]
    simp only [Option.bind_eq_bind, Option.bind_some]
    rw [hnul]
    exact ⟨_, rfl, hholds⟩

/-- In memory the loop gives what it gives on the text, and the array is in order. -/
def StringRead (json : Bytes) (outSize : Nat) (call : Option (Option Nat × OutBuffer)) (model : Option (Bytes × Bytes)) :
    Prop :=
  ∃ b', call = some (model.map fun r => indexOf json r.2, b') ∧ b'.Holds outSize (model.map Prod.fst)

theorem stringRead_fail (json : Bytes) {text : Option Bytes} (h : b.Holds outSize text) :
    StringRead json outSize (some (none, b)) none := ⟨b, rfl, h.fail⟩

/-- Something is appended, and where there was room for it the loop goes on. -/
theorem stringRead_append {json : Bytes} {call : Option (Bool × OutBuffer)} {appended : Option Bytes}
    {go : OutBuffer → Option (Option Nat × OutBuffer)} {next : Bytes → Option (Bytes × Bytes)}
    (hcall : ∃ b', call = some (appended.isSome, b') ∧ b'.Holds outSize appended)
    (hgo : ∀ b' text, b'.Holds outSize (some text) → StringRead json outSize (go b') (next b'.text)) :
    StringRead json outSize (call.bind fun (ok, out) => if ok then go out else some (none, out))
      (appended.bind next) := by
  obtain ⟨b', rfl, hholds⟩ := hcall
  cases appended with
  | none => exact stringRead_fail json hholds
  | some text =>
    have hnext := hgo b' text hholds
    rw [hholds.text_eq text rfl] at hnext
    exact hnext

theorem parseStringLoop_eq {json q : Bytes} {rounds : Nat} {text : Option Bytes} (hnul : 0 ∉ json) (h : q <:+ json)
    (hrounds : q.length < rounds) (hb : b.Holds outSize text) :
    StringRead json outSize (parseStringLoop (json ++ [0]) outSize rounds (indexOf json q) b)
      (parseJsonStringLoop outSize rounds b.text q) := by
  induction rounds generalizing q b text with
  | zero => omega
  | succ rounds ih =>
    rw [parseStringLoop, read_head h]
    simp only [Option.bind_eq_bind, Option.bind_some]
    cases q with
    | nil => exact stringRead_fail json hb
    | cons c p =>
      have hp := suffix_of_cons h
      rw [List.length_cons] at hrounds
      rw [byteAt_cons, if_neg (head_ne hnul h), indexOf_cons h, parseJsonStringLoop.eq_def]
      dsimp only
      by_cases hquote : c = 0x22
      · rw [if_pos hquote, if_pos hquote]
        exact ⟨b, rfl, hb.fits, hb.terminated, fun t ht => Option.some.inj ht⟩
      rw [if_neg hquote, if_neg hquote]
      by_cases hcontrol : c < 0x20
      · rw [if_pos hcontrol, if_pos hcontrol]
        exact stringRead_fail json hb
      rw [if_neg hcontrol, if_neg hcontrol]
      by_cases hslash : c = 0x5C
      · rw [if_neg (not_not.2 hslash), if_neg (not_not.2 hslash), read_head hp]
        simp only [Option.bind_some]
        cases p with
        | nil => exact stringRead_fail json hb
        | cons esc p =>
          have hp' := suffix_of_cons hp
          rw [List.length_cons] at hrounds
          rw [byteAt_cons, indexOf_cons hp]
          dsimp only
          by_cases hu : esc = 0x75
          · rw [if_pos hu, if_pos hu, unicodeEscapeAt_eq hp']
            cases hunicode : parseUnicodeEscape p with
            | none => exact stringRead_fail json hb
            | some escape =>
              obtain ⟨cp, rest⟩ := escape
              have hrest := parseUnicodeEscape_suffix hunicode
              have hlen := hrest.length_le
              exact stringRead_append (appendDecodedCodepointAt_eq hb cp) fun b' text hb' =>
                ih (hrest.trans hp') (by omega) hb'
          · rw [if_neg hu, if_neg hu]
            cases hesc : escapedByte esc with
            | none => exact stringRead_fail json hb
            | some byte =>
              exact stringRead_append (appendByteAt_eq hb byte) fun b' text hb' => ih hp' (by omega) hb'
      · rw [if_pos hslash, if_pos hslash]
        exact stringRead_append (appendByteAt_eq hb c) fun b' text hb' => ih hp (by omega) hb'

/-- An array with a NUL behind the text is that string. -/
theorem OutBuffer.Holds.cstr_eq {text : Bytes} (h : b.Holds outSize (some text)) (hnul : 0 ∉ text) :
    cstr b.mem = text := by
  have htext : b.mem.take b.pos = text := h.text_eq text rfl
  obtain ⟨hlt, hend⟩ := List.getElem?_eq_some_iff.1 h.terminated
  have hmem : b.mem = text ++ 0 :: b.mem.drop (b.pos + 1) := by
    rw [← htext, ← hend, List.getElem_cons_drop, List.take_append_drop]
  rw [hmem, cstr, List.takeWhile_append_of_pos fun c hc => bne_iff_ne.2 (ne_of_mem_of_not_mem hc hnul)]
  exact List.append_nil text

/-- A first round of writing: the empty string. -/
theorem write_empty {out : Bytes} (hout : out.length = outSize) (hsize : 1 ≤ outSize) :
    write out 0 0 = some (out.set 0 0) ∧ OutBuffer.Holds outSize ⟨out.set 0 0, 0⟩ none := by
  have hlt : 0 < out.length := by omega
  refine ⟨if_pos hlt, ⟨?_, hsize⟩, ?_, nofun⟩
  · rw [List.length_set, hout]
  · rw [OutBuffer.Terminated, List.getElem?_set_self hlt]

theorem parseJsonStringAt_eq {json q out : Bytes} (hnul : 0 ∉ json) (h : q <:+ json) (hquote : byteAt q 0 = 0x22)
    (hout : out.length = outSize) (hsize : 1 ≤ outSize) :
    ∃ out', parseJsonStringAt (json ++ [0]) outSize (indexOf json q) out =
        some ((parseJsonString outSize q).map fun r => indexOf json r.2, out') ∧
      out'.length = outSize ∧ 0 ∈ out' ∧
      ∀ text rest, parseJsonString outSize q = some (text, rest) → cstr out' = text := by
  obtain ⟨hwrite, hempty⟩ := write_empty hout hsize
  cases q with
  | nil => cases hquote
  | cons c p =>
    have hp := suffix_of_cons h
    have hstart : ¬ (c ≠ 0x22 ∨ outSize = 0) := not_or.2 ⟨not_not.2 hquote, by omega⟩
    have hmodel : parseJsonString outSize (c :: p) = parseJsonStringLoop outSize (p.length + 1) [] p := if_neg hstart
    obtain ⟨b', hloop, hholds⟩ := parseStringLoop_eq hnul hp (Nat.lt_succ_self p.length) hempty
    change parseStringLoop _ _ _ _ _ = some ((parseJsonStringLoop outSize (p.length + 1) [] p).map _, b') at hloop
    change b'.Holds outSize ((parseJsonStringLoop outSize (p.length + 1) [] p).map _) at hholds
    rw [← hmodel] at hloop hholds
    refine ⟨b'.mem, ?_, hholds.fits.size, List.mem_of_getElem? hholds.terminated, ?_⟩
    · rw [parseJsonStringAt, read_head h, indexOf_cons h, roundsFrom_eq hp]
      simp only [Option.bind_eq_bind, Option.bind_some]
      rw [byteAt_cons, if_neg hstart, hwrite, Option.bind_some, hloop]
      rfl
    · intro text rest hread
      obtain ⟨-, cs, -, hcs⟩ := parseJsonString_eq_some.1 hread
      rw [hread] at hholds
      exact hholds.cstr_eq (readString_bounds hcs).1

end

/-! ## The field -/

section
variable {outSize : Nat} {json q key : Bytes}

/-- The array `out` is in order, and what is returned is what was found on the text. -/
structure FieldRead (outSize : Nat) (r : Bool × Bytes) (model : Option Bytes) : Prop where
  size : r.2.length = outSize
  terminated : 0 ∈ r.2
  found_eq : r.1 = model.isSome
  text_eq : ∀ text, model = some text → cstr r.2 = text

theorem FieldRead.fail {r : Bool × Bytes} {model : Option Bytes} (h : FieldRead outSize r model) :
    FieldRead outSize (false, r.2) none :=
  ⟨h.size, h.terminated, rfl, nofun⟩

theorem parseJsonString_head {p : Bytes} (h : byteAt p 0 ≠ 0x22) (outSize : Nat) : parseJsonString outSize p = none := by
  cases p with
  | nil => rfl
  | cons c p => exact if_pos (.inl h)

theorem parseJsonString_suffix {p text rest : Bytes} (h : parseJsonString outSize p = some (text, rest)) :
    rest <:+ p ∧ rest.length < p.length := by
  obtain ⟨-, cs, rfl, -⟩ := parseJsonString_eq_some.1 h
  refine ⟨List.suffix_append _ _, ?_⟩
  rw [List.length_append, quoted, List.length_append, List.length_cons]
  omega

/-- The value of a member, read or skipped. -/
theorem fieldValue_eq {out name : Bytes} {found : Bool} {model : Option Bytes} {value : Option (Option Bytes × Bytes)}
    (hnul : 0 ∉ json) (h : q <:+ json) (hsize : 1 ≤ outSize) (hout : FieldRead outSize (found, out) model)
    (hvalue : (if name = key then (parseJsonString outSize q).map fun (out, p) => (some out, p)
      else (skipJsonValue q).map fun p => (model, p)) = value) :
    ∃ found' out',
      (if (name == key) = true then
          if byteAt q 0 ≠ 0x22 then some (none, found, out)
          else (parseJsonStringAt (json ++ [0]) outSize (indexOf json q) out).map fun (next, out) => (next, true, out)
        else (skipJsonValueAt (json ++ [0]) (indexOf json q)).map fun next => (next, found, out)) =
        some (value.map fun r => indexOf json r.2, found', out') ∧
      FieldRead outSize (false, out') none ∧
      ∀ model' rest, value = some (model', rest) → FieldRead outSize (found', out') model' ∧ rest <:+ q := by
  subst hvalue
  by_cases hkey : name = key
  · rw [if_pos (beq_iff_eq.2 hkey), if_pos hkey]
    by_cases hquote : byteAt q 0 = 0x22
    · obtain ⟨out', hcall, hlen, hend, htext⟩ := parseJsonStringAt_eq hnul h hquote hout.size hsize
      refine ⟨true, out', ?_, ⟨hlen, hend, rfl, nofun⟩, fun model' rest hread => ?_⟩
      · rw [if_neg (not_not.2 hquote), hcall, Option.map_map]
        rfl
      · obtain ⟨⟨text, p⟩, hp, hpair⟩ := Option.map_eq_some_iff.1 hread
        obtain ⟨rfl, rfl⟩ := Prod.mk.inj hpair
        refine ⟨⟨hlen, hend, rfl, fun t ht => ?_⟩, (parseJsonString_suffix hp).1⟩
        exact (htext text p hp).trans (Option.some.inj ht)
    · rw [if_pos hquote, parseJsonString_head hquote]
      exact ⟨found, out, rfl, hout.fail, nofun⟩
  · rw [if_neg (mt beq_iff_eq.1 hkey), if_neg hkey, skipJsonValueAt_eq hnul h]
    refine ⟨found, out, ?_, hout.fail, fun model' rest hskip => ?_⟩
    · rw [Option.map_map]
      rfl
    · obtain ⟨p, hp, hpair⟩ := Option.map_eq_some_iff.1 hskip
      obtain ⟨rfl, rfl⟩ := Prod.mk.inj hpair
      exact ⟨hout, (skipJsonValue_suffix hp).trans (skipWs_suffix q)⟩

/-- Behind the value of a member. -/
theorem afterValue_eq {out : Bytes} {found : Bool} {model : Option Bytes} (go : Nat → Option (Bool × Bytes))
    (next : Bytes → Option Bytes) (hnul : 0 ∉ json) (h : q <:+ json) (hout : FieldRead outSize (found, out) model)
    (hgo : ∀ p, p <:+ json → p.length < q.length → ∃ r, go (indexOf json p) = some r ∧ FieldRead outSize r (next p)) :
    ∃ r,
      ((skipWsAt (json ++ [0]) (indexOf json q)).bind fun p => (json ++ [0])[p]?.bind fun c =>
        if c = 0x2C then go (p + 1) else if c = 0x7D then some (found, out) else some (false, out)) = some r ∧
      FieldRead outSize r (match skipWs q with
        | [] => none
        | c :: p => if c = 0x2C then next p else if c = 0x7D then model else none) := by
  have hws := (skipWs_suffix q).trans h
  have hlen := (skipWs_suffix q).length_le
  rw [next_byte hnul h]
  cases hq : skipWs q with
  | nil => exact ⟨_, rfl, hout.fail⟩
  | cons c p =>
    rw [hq] at hws hlen
    rw [byteAt_cons, indexOf_cons hws]
    dsimp only
    by_cases hcomma : c = 0x2C
    · rw [if_pos hcomma, if_pos hcomma]
      exact hgo p (suffix_of_cons hws) hlen
    rw [if_neg hcomma, if_neg hcomma]
    split
    · exact ⟨_, rfl, hout⟩
    · exact ⟨_, rfl, hout.fail⟩

theorem stringFieldLoop_eq {out : Bytes} {found : Bool} {model : Option Bytes} {scratch : Nat → Bytes} {rounds : Nat}
    (hnul : 0 ∉ json) (h : q <:+ json) (hrounds : q.length < rounds) (hsize : 1 ≤ outSize)
    (hscratch : ∀ i, (scratch i).length = 128) (hout : FieldRead outSize (found, out) model) :
    ∃ r, stringFieldLoop (json ++ [0]) key outSize scratch rounds (indexOf json q) found out = some r ∧
      FieldRead outSize r (getStringFieldLoop key outSize rounds model q) := by
  induction rounds generalizing q found out model with
  | zero => omega
  | succ rounds ih =>
    have hws := (skipWs_suffix q).trans h
    have hwslen := (skipWs_suffix q).length_le
    rw [stringFieldLoop, getStringFieldLoop]
    simp only [Option.bind_eq_bind]
    rw [next_byte hnul h]
    generalize skipWs q = q at hws hwslen
    by_cases hbrace : byteAt q 0 = 0x7D
    · rw [if_pos hbrace, if_pos hbrace]
      exact ⟨_, rfl, hout.fail⟩
    rw [if_neg hbrace, if_neg hbrace]
    by_cases hquote : byteAt q 0 = 0x22
    · rw [if_neg (not_not.2 hquote)]
      obtain ⟨parsed, hcall, -, hend, htext⟩ := parseJsonStringAt_eq hnul hws hquote (hscratch rounds) (by decide)
      rw [hcall]
      cases hname : parseJsonString 128 q with
      | none => exact ⟨_, rfl, hout.fail⟩
      | some name =>
        obtain ⟨parsedKey, p⟩ := name
        obtain ⟨hp, hplen⟩ := parseJsonString_suffix hname
        have hp' := (skipWs_suffix p).trans (hp.trans hws)
        have hplen' := (skipWs_suffix p).length_le
        simp only [Option.bind_some, Option.map_some]
        rw [next_byte hnul (hp.trans hws)]
        cases hcolon : skipWs p with
        | nil => exact ⟨_, rfl, hout.fail⟩
        | cons c p =>
          rw [hcolon] at hp' hplen'
          rw [List.length_cons] at hplen'
          rw [byteAt_cons]
          dsimp only
          by_cases hc : c = 0x3A
          · have hvalue := (skipWs_suffix p).trans (suffix_of_cons hp')
            have hvlen := (skipWs_suffix p).length_le
            rw [if_neg (not_not.2 hc), if_neg (not_not.2 hc), indexOf_cons hp', skipWsAt_eq hnul (suffix_of_cons hp'),
              Option.bind_some, strcmpAt, if_pos hend, htext parsedKey _ hname, Option.bind_some, read_head hvalue,
              Option.bind_some]
            obtain ⟨found', out', hmem, hfail, hfound⟩ := fieldValue_eq hnul hvalue hsize hout rfl
            rw [hmem]
            revert hfound
            cases (if parsedKey = key then (parseJsonString outSize (skipWs p)).map fun (out, p) => (some out, p)
                else (skipJsonValue (skipWs p)).map fun p => (model, p)) with
            | none =>
              intro _
              exact ⟨_, rfl, hfail⟩
            | some value =>
              intro hfound
              obtain ⟨hfound, hrest⟩ := hfound value.1 value.2 rfl
              have hrlen := hrest.length_le
              exact afterValue_eq (stringFieldLoop _ key outSize scratch rounds · found' out')
                (getStringFieldLoop key outSize rounds value.1) hnul (hrest.trans hvalue) hfound
                fun p hp hlen => ih hp (by omega) hfound
          · rw [if_pos hc, if_pos hc]
            exact ⟨_, rfl, hout.fail⟩
    · rw [if_pos hquote, parseJsonString_head hquote]
      exact ⟨_, rfl, hout.fail⟩

theorem jsonGetStringFieldAt_eq {out : Bytes} {scratch : Nat → Bytes} (hnul : 0 ∉ json) (hkey : key ≠ [])
    (hsize : 1 ≤ outSize) (hout : out.length = outSize) (hscratch : ∀ i, (scratch i).length = 128) :
    ∃ r, jsonGetStringFieldAt (json ++ [0]) key outSize out scratch = some r ∧
      FieldRead outSize r (jsonGetStringField json key outSize) := by
  obtain ⟨hwrite, hempty⟩ := write_empty hout hsize
  have hstart : FieldRead outSize (false, out.set 0 0) none :=
    ⟨hempty.fits.size, List.mem_of_getElem? hempty.terminated, rfl, nofun⟩
  have hguard : ¬ (key = [] ∨ outSize = 0) := not_or.2 ⟨hkey, by omega⟩
  have hws := skipWs_suffix json
  have hzero : indexOf json json = 0 := Nat.sub_self _
  have hnext := fun go => next_byte (α := Bool × Bytes) hnul (List.suffix_refl json) go
  rw [hzero] at hnext
  unfold jsonGetStringFieldAt jsonGetStringField
  rw [if_neg hguard, if_neg hguard, hwrite]
  simp only [Option.bind_eq_bind, Option.bind_some]
  rw [hnext]
  cases hq : skipWs json with
  | nil => exact ⟨_, rfl, hstart⟩
  | cons c p =>
    rw [hq] at hws
    rw [byteAt_cons, indexOf_cons hws, roundsFrom_eq (suffix_of_cons hws)]
    dsimp only
    split
    · exact ⟨_, rfl, hstart⟩
    · exact stringFieldLoop_eq hnul (suffix_of_cons hws) (Nat.lt_succ_self _) hsize hscratch hstart

end

/-- Whatever the text and whatever is in the arrays before: no byte behind the NUL of the text is read, no byte outside
`out` and `parsed_key` is written, no loop takes more rounds than there are bytes left, and what is returned is what
the reader gives on the text. With an empty key nothing is written; with any other there is a NUL in `out`. -/
theorem json_reader_in_bounds (json key out : Bytes) (outSize : Nat) (scratch : Nat → Bytes) (hnul : 0 ∉ json)
    (hsize : 1 ≤ outSize) (hout : out.length = outSize) (hscratch : ∀ i, (scratch i).length = 128) :
    ∃ found out', jsonGetStringFieldAt (json ++ [0]) key outSize out scratch = some (found, out') ∧
      out'.length = outSize ∧ (if key = [] then found = false ∧ out' = out else 0 ∈ out') ∧
      found = (jsonGetStringField json key outSize).isSome ∧
      ∀ text, jsonGetStringField json key outSize = some text → cstr out' = text := by
  by_cases hkey : key = []
  · have hnone : jsonGetStringField json key outSize = none := if_pos (.inl hkey)
    simp only [if_pos hkey, hnone]
    exact ⟨false, out, if_pos (.inl hkey), hout, ⟨rfl, rfl⟩, rfl, nofun⟩
  · obtain ⟨⟨found, out'⟩, hcall, hread⟩ := jsonGetStringFieldAt_eq hnul hkey hsize hout hscratch
    simp only [if_neg hkey]
    exact ⟨found, out', hcall, hread.size, hread.terminated, hread.found_eq, hread.text_eq⟩

/-- A text that ends inside a surrogate pair, and arrays with no NUL in them. -/
theorem json_reader_in_bounds_cut :
    let json := lit "\x7b\"a\":\"x\\ud83d\\u"
    let scratch := List.replicate 128 0x41
    0 ∉ json ∧ ∃ found out', jsonGetStringFieldAt (json ++ [0]) (lit "a") 3 (lit "AAA") (fun _ => scratch) =
      some (found, out') ∧ out'.length = 3 ∧ 0 ∈ out' := by
  intro json scratch
  have hnul : 0 ∉ json := by decide
  obtain ⟨found, out', hcall, hlen, hend, -⟩ := json_reader_in_bounds json (lit "a") (lit "AAA") 3 (fun _ => scratch)
    hnul (by decide) rfl fun _ => List.length_replicate
  rw [if_neg (by decide)] at hend
  exact ⟨hnul, found, out', hcall, hlen, hend⟩

/-- With an empty key an array that has no NUL in it keeps none. -/
theorem empty_key_unterminated :
    jsonGetStringFieldAt (lit "\x7b\x7d" ++ [0]) [] 1 [0x41] (fun _ => List.replicate 128 0) = some (false, [0x41]) ∧
      0 ∉ lit "\x7b\x7d" ∧ (0 : UInt8) ∉ [0x41] := by
  refine ⟨rfl, ?_, ?_⟩ <;> decide

end Tnt
