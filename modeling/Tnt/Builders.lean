import Tnt.Export
import Tnt.JsonText
/-!
# The string builders in memory (`common.c`, `json_text.c`)

A builder writes into an array behind a position, ends the text with a NUL and
moves the position. `bufferAppend` and `jsonAppendString` are what this does to
the text in front of the position.
-/
open BaseLib

namespace Tnt

/-- `buffer` and `pos` -/
structure OutBuffer where
  mem : Bytes
  pos : Nat

namespace OutBuffer

/-- What stands in front of the position. -/
def text (b : OutBuffer) : Bytes := b.mem.take b.pos

def Terminated (b : OutBuffer) : Prop := b.mem[b.pos]? = some 0

instance (b : OutBuffer) : Decidable b.Terminated := inferInstanceAs (Decidable (_ = _))

end OutBuffer

/-- `memcpy(buffer + i, data, len)` -/
def store (buffer : Bytes) (i : Nat) (data : Bytes) : Bytes := buffer.take i ++ data ++ buffer.drop (i + data.length)

/-- `vsnprintf(buffer + i, n, …)` where the arguments are formatted as `s`: the buffer, and what is returned. A length
that is no `int` is an error. -/
def vsnprintf (buffer : Bytes) (i n : Nat) (s : Bytes) : Bytes × Int :=
  if s.length > INT_MAX then (buffer, -1) else (store buffer i (s.take (n - 1) ++ [0]), s.length)

/-- `buffer_append_bytes` -/
def bufferAppendBytes (bufSize : Nat) (b : OutBuffer) (data : Bytes) : OutBuffer :=
  let len := data.length
  if len = 0 ∨ bufSize = 0 ∨ b.pos ≥ bufSize - 1 then b
  else
    let available := bufSize - 1 - b.pos
    let toCopy := if len < available then len else available
    let mem := store b.mem b.pos (data.take toCopy)
    let pos := b.pos + toCopy
    ⟨store mem pos [0], pos⟩

/-- `buffer_appendf` -/
def bufferAppendf (bufSize : Nat) (b : OutBuffer) (s : Bytes) : OutBuffer :=
  if bufSize = 0 ∨ b.pos ≥ bufSize - 1 then b
  else
    let (mem, written) := vsnprintf b.mem b.pos (bufSize - b.pos) s
    if written < 0 then { b with mem }
    else if written.toNat ≥ bufSize - b.pos then ⟨mem, bufSize - 1⟩
    else ⟨mem, b.pos + written.toNat⟩

/-- The loop of `tnt_json_append_string`. -/
def tntJsonAppendLoop (bufSize : Nat) : Bytes → OutBuffer → OutBuffer
  | [], b => b
  | c :: p, b =>
    if c ≠ 0 ∧ b.pos < bufSize - 1 then tntJsonAppendLoop bufSize p (bufferAppendBytes bufSize b (jsonEscape c)) else b

/-- `tnt_json_append_string` -/
def tntJsonAppendString (bufSize : Nat) (b : OutBuffer) (text : Bytes) : OutBuffer :=
  bufferAppendBytes bufSize (tntJsonAppendLoop bufSize text (bufferAppendBytes bufSize b [0x22])) [0x22]

/-! ## One call -/

/-- The position is within the buffer. -/
structure OutBuffer.Fits (bufSize : Nat) (b : OutBuffer) : Prop where
  size : b.mem.length = bufSize
  pos_lt : b.pos < bufSize

/-- A builder has left the text in the buffer, with a NUL behind it, or nothing was written. -/
structure OutBuffer.Wrote (bufSize : Nat) (b b' : OutBuffer) (text : Bytes) : Prop where
  fits : b'.Fits bufSize
  text_eq : b'.text = text
  ended : b' = b ∨ b'.Terminated

namespace OutBuffer

variable {bufSize : Nat} {b b' b'' : OutBuffer} {s t : Bytes}

theorem Fits.length_text (h : b.Fits bufSize) : b.text.length = b.pos := by
  rw [text, List.length_take, h.size, Nat.min_eq_left h.pos_lt.le]

theorem Fits.refl (h : b.Fits bufSize) : b.Wrote bufSize b b.text := ⟨h, rfl, .inl rfl⟩

theorem Wrote.trans (h : b.Wrote bufSize b' s) (h' : b'.Wrote bufSize b'' t) : b.Wrote bufSize b'' t := by
  refine ⟨h'.fits, h'.text_eq, ?_⟩
  rcases h'.ended with rfl | hended
  · exact h.ended
  · exact .inr hended

theorem Wrote.terminated (h : b.Wrote bufSize b' s) (hb : b.Terminated) : b'.Terminated := by
  rcases h.ended with rfl | hended
  · exact hb
  · exact hended

end OutBuffer

theorem store_append {front back data : Bytes} : store (front ++ back) front.length data =
    front ++ data ++ back.drop data.length := by
  rw [store, List.take_left, List.drop_length_add_append]

/-- Two stores, one behind the other, are one. -/
theorem store_store {front back data more : Bytes} :
    store (store (front ++ back) front.length data) (front.length + data.length) more =
      store (front ++ back) front.length (data ++ more) := by
  rw [store_append, ← List.length_append, store_append, store_append, List.drop_drop]
  simp only [List.append_assoc, List.length_append]

section Calls
variable {bufSize : Nat} {b : OutBuffer}

/-- As much of some data as there is room for, and a NUL. -/
theorem wrote_store (h : b.Fits bufSize) {k : Nat} {data : Bytes} (hk : data.length = k) (hroom : b.pos + k < bufSize) :
    b.Wrote bufSize ⟨store b.mem b.pos (data ++ [0]), b.pos + k⟩ (b.text ++ data) := by
  have hmem : b.mem = b.text ++ b.mem.drop b.pos := (List.take_append_drop _ _).symm
  have hlen := h.length_text
  have hstore : store b.mem b.pos (data ++ [0]) = b.text ++ data ++ 0 :: (b.mem.drop b.pos).drop (k + 1) := by
    conv_lhs => rw [hmem, ← hlen, store_append]
    simp [hk, hlen]
  have hfront : (b.text ++ data).length = b.pos + k := by rw [List.length_append, hlen, hk]
  refine ⟨⟨?_, hroom⟩, ?_, .inr ?_⟩
  · rw [hstore, List.length_append, hfront, List.length_cons, List.length_drop, List.length_drop, h.size]
    omega
  · rw [OutBuffer.text, hstore, ← hfront, List.take_left]
  · rw [OutBuffer.Terminated, hstore, ← hfront, List.getElem?_append_right (Nat.le_refl _), Nat.sub_self]
    rfl

/-- Nothing can be added to a full buffer. -/
theorem wrote_full (h : b.Fits bufSize) (hfull : b.pos ≥ bufSize - 1) (data : Bytes) :
    b.Wrote bufSize b (bufferAppend bufSize b.text data) := by
  refine ⟨h, ?_, .inl rfl⟩
  have hlen := h.length_text
  have hlt := h.pos_lt
  rw [bufferAppend, List.take_append_of_le_length (by omega), List.take_of_length_le (by omega)]

theorem bufferAppendBytes_wrote (h : b.Fits bufSize) (data : Bytes) :
    b.Wrote bufSize (bufferAppendBytes bufSize b data) (bufferAppend bufSize b.text data) := by
  have hlen := h.length_text
  have hlt := h.pos_lt
  unfold bufferAppendBytes
  dsimp only
  split
  · rename_i hnop
    by_cases hfull : b.pos ≥ bufSize - 1
    · exact wrote_full h hfull data
    · obtain rfl : data = [] := List.length_eq_zero_iff.1 (by omega)
      refine ⟨h, ?_, .inl rfl⟩
      rw [bufferAppend, List.append_nil, List.take_of_length_le (by omega)]
  · obtain ⟨k, hk⟩ : ∃ k, k = if data.length < bufSize - 1 - b.pos then data.length else bufSize - 1 - b.pos := ⟨_, rfl⟩
    have hcut : (data.take k).length = k := by
      rw [List.length_take]
      split at hk <;> omega
    have htext : bufferAppend bufSize b.text data = b.text ++ data.take k := by
      rw [bufferAppend, List.take_append, List.take_of_length_le (by omega), hlen]
      split at hk
      · rw [hk, List.take_length, List.take_of_length_le (by omega)]
      · rw [hk]
    have hmem : b.text ++ b.mem.drop b.pos = b.mem := List.take_append_drop _ _
    have hstore := @store_store b.text (b.mem.drop b.pos) (data.take k) [0]
    rw [hmem, hlen, hcut] at hstore
    rw [← hk, htext, hstore]
    exact wrote_store h hcut (by split at hk <;> omega)

/-- A formatted text is appended just as its bytes are. -/
theorem bufferAppendf_wrote (h : b.Fits bufSize) {s : Bytes} (hs : s.length ≤ INT_MAX) :
    b.Wrote bufSize (bufferAppendf bufSize b s) (bufferAppend bufSize b.text s) := by
  have hlen := h.length_text
  have hlt := h.pos_lt
  unfold bufferAppendf vsnprintf
  split
  · exact wrote_full h (by omega) s
  · rw [if_neg (Nat.not_lt.2 hs)]
    simp only [Int.toNat_natCast, if_neg (Int.not_lt.2 (Int.natCast_nonneg s.length))]
    split
    · rename_i hcut
      have htake : (s.take (bufSize - b.pos - 1)).length = bufSize - 1 - b.pos := by
        rw [List.length_take]
        omega
      have htext : bufferAppend bufSize b.text s = b.text ++ s.take (bufSize - b.pos - 1) := by
        rw [bufferAppend, List.take_append, List.take_of_length_le (by omega), hlen, Nat.sub_right_comm]
      have hend : b.pos + (bufSize - 1 - b.pos) = bufSize - 1 := by omega
      have hwrote := wrote_store h htake (by omega)
      rwa [htext, ← hend]
    · rename_i hfits
      rw [List.take_of_length_le (by omega), bufferAppend,
        List.take_of_length_le (by rw [List.length_append]; omega)]
      exact wrote_store h rfl (by omega)

theorem tntJsonAppendLoop_wrote (h : b.Fits bufSize) (p : Bytes) :
    b.Wrote bufSize (tntJsonAppendLoop bufSize p b) (jsonAppendLoop bufSize b.text (cstr p)) := by
  induction p generalizing b with
  | nil => exact h.refl
  | cons c p ih =>
    have hlen := h.length_text
    rw [tntJsonAppendLoop]
    by_cases hc : c = 0
    · rw [if_neg fun hne => hne.1 hc, hc]
      exact h.refl
    · have hcons : cstr (c :: p) = c :: cstr p := by simp [cstr, hc]
      rw [hcons, jsonAppendLoop, hlen]
      by_cases hroom : b.pos < bufSize - 1
      · have hone := bufferAppendBytes_wrote h (jsonEscape c)
        have hrest := ih hone.fits
        rw [hone.text_eq] at hrest
        rw [if_pos ⟨hc, hroom⟩, if_pos hroom]
        exact hone.trans hrest
      · rw [if_neg fun hand => hroom hand.2, if_neg hroom]
        exact h.refl

theorem tntJsonAppendString_wrote (h : b.Fits bufSize) (text : Bytes) :
    b.Wrote bufSize (tntJsonAppendString bufSize b text) (jsonAppendString bufSize b.text (cstr text)) := by
  have hopen := bufferAppendBytes_wrote h [0x22]
  have hloop := tntJsonAppendLoop_wrote hopen.fits text
  have hclose := bufferAppendBytes_wrote hloop.fits [0x22]
  rw [hopen.text_eq] at hloop
  rw [hloop.text_eq] at hclose
  exact (hopen.trans hloop).trans hclose

end Calls

/-! ## Any calls -/

/-- A call of a builder. What `vsnprintf` formats has a length that is an `int`. -/
inductive BuilderCall
  | bytes (data : Bytes)
  | format (s : Bytes) (h : s.length ≤ INT_MAX)
  | json (text : Bytes)

namespace BuilderCall

def run (bufSize : Nat) (b : OutBuffer) : BuilderCall → OutBuffer
  | bytes data => bufferAppendBytes bufSize b data
  | format s _ => bufferAppendf bufSize b s
  | json text => tntJsonAppendString bufSize b text

/-- What the call outputs where there is room for it. -/
def output : BuilderCall → Bytes
  | bytes data => data
  | format s _ => s
  | json text => jsonString (cstr text)

theorem run_wrote {bufSize : Nat} {b : OutBuffer} {text : Bytes} (h : b.Fits bufSize)
    (htext : b.text = text.take (bufSize - 1)) (call : BuilderCall) :
    b.Wrote bufSize (call.run bufSize b) ((text ++ call.output).take (bufSize - 1)) := by
  cases call with
  | bytes data =>
    have hwrote := bufferAppendBytes_wrote h data
    rwa [htext, bufferAppend_take] at hwrote
  | format s hs =>
    have hwrote := bufferAppendf_wrote h hs
    rwa [htext, bufferAppend_take] at hwrote
  | json s =>
    have hwrote := tntJsonAppendString_wrote h s
    rwa [htext, jsonAppendString_take] at hwrote

theorem runs_wrote {bufSize : Nat} {b : OutBuffer} {text : Bytes} (h : b.Fits bufSize)
    (htext : b.text = text.take (bufSize - 1)) (calls : List BuilderCall) :
    b.Wrote bufSize (calls.foldl (run bufSize) b) ((text ++ calls.flatMap output).take (bufSize - 1)) := by
  induction calls generalizing b text with
  | nil =>
    rw [List.foldl_nil, List.flatMap_nil, List.append_nil, ← htext]
    exact h.refl
  | cons call calls ih =>
    have hone := run_wrote h htext call
    have hrest := ih hone.fits hone.text_eq
    rw [List.append_assoc, ← List.flatMap_cons] at hrest
    exact hone.trans hrest

end BuilderCall

/-- Any calls on an empty buffer leave as much of their outputs as fits, with a NUL behind it. -/
theorem builders_prefix (bufSize : Nat) (buffer : Bytes) (hsize : 1 ≤ bufSize) (hlen : buffer.length = bufSize)
    (hempty : buffer[0]? = some 0) (calls : List BuilderCall) :
    let b := calls.foldl (BuilderCall.run bufSize) ⟨buffer, 0⟩
    let outputs := calls.flatMap BuilderCall.output
    b.mem.length = bufSize ∧ b.mem.take b.pos = outputs.take (bufSize - 1) ∧
      b.pos = min outputs.length (bufSize - 1) ∧ b.mem[b.pos]? = some 0 := by
  intro b outputs
  have hstart : OutBuffer.Fits bufSize ⟨buffer, 0⟩ := ⟨hlen, hsize⟩
  have htext : OutBuffer.text ⟨buffer, 0⟩ = [].take (bufSize - 1) := by simp [OutBuffer.text]
  have hwrote := BuilderCall.runs_wrote hstart htext calls
  rw [List.nil_append] at hwrote
  refine ⟨hwrote.fits.size, hwrote.text_eq, ?_, hwrote.terminated hempty⟩
  rw [← hwrote.fits.length_text, hwrote.text_eq, List.length_take, Nat.min_comm]

theorem builders_prefix_cut :
    let b := [BuilderCall.bytes (lit "ab"), .json (lit "c\"d")].foldl (BuilderCall.run 6) ⟨List.replicate 6 0, 0⟩
    b.mem.take b.pos = lit "ab\"c\\" ∧ b.pos = 5 ∧ b.mem[b.pos]? = some 0 :=
  And.right <| builders_prefix 6 (List.replicate 6 0) (by decide) rfl rfl [.bytes (lit "ab"), .json (lit "c\"d")]

end Tnt
