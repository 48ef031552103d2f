import Tnt.Names
/-!
# Editing lines (`input_buffer.c`, `input.c`)

The name prompt, INSERT mode and the command line edit a buffer byte by byte. A
byte that starts a longer sequence is read together with what the channel gives of
the rest. No key puts a control byte into a buffer: this is `Plain` of every
buffer, of the sent lines that the arrow keys bring back, and of the names that
the Tab key puts in.
-/
open BaseLib

namespace Tnt

/-! ## `input_buffer.c` -/

/-- `tnt_input_append_status_t`; none of the flags is `TNT_INPUT_APPEND_OK`. -/
structure AppendStatus where
  ignored : Bool
  overflow : Bool
  invalidUtf8 : Bool
  deriving DecidableEq

namespace AppendStatus

def ok : AppendStatus := ⟨false, false, false⟩

/-- `status |= …` -/
def or (s t : AppendStatus) : AppendStatus :=
  ⟨s.ignored || t.ignored, s.overflow || t.overflow, s.invalidUtf8 || t.invalidUtf8⟩

end AppendStatus

/-- `tnt_input_utf8_state_t`: the bytes of a sequence so far, and how many it has. -/
structure Utf8State where
  bytes : Bytes
  expectedLen : Nat
  deriving DecidableEq

/-- `tnt_input_utf8_state_reset` -/
def Utf8State.reset : Utf8State := ⟨[], 0⟩

section Append
variable {cap : Nat} [NeZero cap]

/-- `append_bytes` -/
def appendBytes (input : CBuf cap) (bytes : Bytes) : AppendStatus × CBuf cap :=
  if bytes = [] then (⟨true, false, false⟩, input)
  else if input.bytes.length + bytes.length ≥ cap then (⟨false, true, false⟩, input)
  else (.ok, CBuf.copy cap (input.bytes ++ bytes))

/-- `tnt_input_append_ascii` -/
def inputAppendAscii (input : CBuf cap) (b : UInt8) : AppendStatus × CBuf cap :=
  if b < 32 ∨ b ≥ 127 then (⟨true, false, false⟩, input) else appendBytes input [b]

/-- `tnt_input_append_utf8_sequence` -/
def inputAppendUtf8Sequence (input : CBuf cap) (bytes : Bytes) : AppendStatus × CBuf cap :=
  if bytes.length = 0 ∨ bytes.length > 4 ∨ !utf8IsValidSequence bytes bytes.length then
    (⟨false, false, true⟩, input)
  else appendBytes input bytes

/-- `start_utf8_sequence` -/
def startUtf8Sequence (input : CBuf cap) (b : UInt8) : AppendStatus × CBuf cap × Utf8State :=
  let expected := utf8ByteLength b
  if expected ≤ 1 ∨ expected > 4 then (⟨false, false, true⟩, input, .reset)
  else (.ok, input, ⟨[b], expected⟩)

/-- `append_printable_byte` -/
def appendPrintableByte (input : CBuf cap) (state : Utf8State) (b : UInt8) : AppendStatus × CBuf cap × Utf8State :=
  if b < 128 then
    let (status, input) := inputAppendAscii input b
    if state.bytes.length > 0 then (AppendStatus.or ⟨false, false, true⟩ status, input, .reset)
    else (status, input, state)
  else if state.bytes.length = 0 then startUtf8Sequence input b
  else if !isContinuation b then
    -- What was begun is dropped, and the byte starts anew.
    let (status, input, state) := startUtf8Sequence input b
    (AppendStatus.or ⟨false, false, true⟩ status, input, state)
  else
    let state : Utf8State := { state with bytes := state.bytes ++ [b] }
    if state.bytes.length = state.expectedLen then
      let (status, input) := inputAppendUtf8Sequence input state.bytes
      (status, input, .reset)
    else (.ok, input, state)

/-- `tnt_input_append_stream_byte` -/
def inputAppendStreamByte (input : CBuf cap) (state : Utf8State) (b : UInt8) (pasteMode : Bool) :
    AppendStatus × CBuf cap × Utf8State :=
  let b := if pasteMode && (b == 0x0D || b == newline || b == 0x09) then 0x20 else b
  if b < 32 then
    if state.bytes.length > 0 then (⟨true, false, true⟩, input, .reset) else (⟨true, false, false⟩, input, state)
  else appendPrintableByte input state b

/-- `tnt_input_utf8_state_finish` -/
def inputUtf8StateFinish (state : Utf8State) : AppendStatus :=
  if state.bytes.length = 0 then .ok else ⟨false, false, true⟩

end Append

/-! ## Keys that edit -/

/-- A line being edited, and the lines that were sent. -/
structure Editor (cap : Nat) where
  input : CBuf cap
  history : List (CBuf cap)
  historyPos : Nat

section Edit
variable {cap : Nat} [NeZero cap]

def Editor.init : Editor cap := ⟨CBuf.copy cap [], [], 0⟩

def Editor.clear (e : Editor cap) : Editor cap := { e with input := CBuf.copy cap [] }

/-- A byte that no key handler took: a printable one is appended, and one that starts a longer
sequence with `rest`, what was read behind it. -/
def Editor.byte (e : Editor cap) (b : UInt8) (rest : Bytes) : Editor cap :=
  if b ≥ 32 ∧ b < 127 then { e with input := (inputAppendAscii e.input b).2 }
  else if b ≥ 128 then
    let charLen := utf8ByteLength b
    if rest.length ≠ charLen - 1 then e
    else if !utf8IsValidSequence (b :: rest) charLen then e
    else { e with input := (inputAppendUtf8Sequence e.input (b :: rest)).2 }
  else e

/-- The Up arrow. -/
def Editor.up (e : Editor cap) : Editor cap :=
  if e.history.length > 0 ∧ e.historyPos > 0 then
    { e with historyPos := e.historyPos - 1, input := e.history.getD (e.historyPos - 1) e.input }
  else e

/-- The Down arrow. -/
def Editor.down (e : Editor cap) : Editor cap :=
  if e.historyPos + 1 < e.history.length then
    { e with historyPos := e.historyPos + 1, input := e.history.getD (e.historyPos + 1) e.input }
  else { e with historyPos := e.history.length, input := CBuf.copy cap [] }

/-- Record a line, in place of the oldest one where there are sixteen. -/
def Editor.record (e : Editor cap) (line : CBuf cap) : Editor cap :=
  let history := (if e.history.length ≥ 16 then e.history.tail else e.history) ++ [line]
  { e with history := history, historyPos := history.length }

/-- Backspace. -/
def Editor.backspace (e : Editor cap) : Editor cap :=
  { e with input := CBuf.copy cap (utf8RemoveLastChar e.input.bytes) }

/-- Ctrl+W. -/
def Editor.deleteWord (e : Editor cap) : Editor cap :=
  { e with input := CBuf.copy cap (utf8RemoveLastWord e.input.bytes) }

end Edit

/-- The loop of `read_username`, for a byte that does not end it, with what was read behind it. -/
def promptByte (username : CBuf MAX_USERNAME_LEN) (b : UInt8) (rest : Bytes) : CBuf MAX_USERNAME_LEN :=
  if b = 21 then CBuf.copy _ []
  else if b = 23 then CBuf.copy _ (utf8RemoveLastWord username.bytes)
  else if b = 127 ∨ b = 8 then CBuf.copy _ (utf8RemoveLastChar username.bytes)
  else if b < 32 then username
  else if b < 128 then
    if username.bytes.length < MAX_USERNAME_LEN - 1 then CBuf.copy _ (username.bytes ++ [b]) else username
  else
    let len := utf8ByteLength b
    if rest.length ≠ len - 1 then username
    else if !utf8IsValidSequence (b :: rest) len then username
    else if username.bytes.length + len < MAX_USERNAME_LEN - 1 then CBuf.copy _ (username.bytes ++ b :: rest)
    else username

/-! ## INSERT mode -/

/-- What a read inside a bracketed paste gave: a byte, or an escape and up to five bytes behind it. -/
inductive PasteRead
  | byte (b : UInt8)
  | escape (tail : Bytes)
  deriving DecidableEq

/-- Stream bytes into the input, in paste mode. -/
def pasteBytes (input : CBuf MAX_MESSAGE_LEN) (state : Utf8State) (bytes : Bytes) :
    CBuf MAX_MESSAGE_LEN × Utf8State :=
  bytes.foldl (fun (input, state) b => (inputAppendStreamByte input state b true).2) (input, state)

/-- The drain loop of a bracketed paste, until its end marker or until a read gives nothing. -/
def pasteLoop : CBuf MAX_MESSAGE_LEN → Utf8State → List PasteRead → CBuf MAX_MESSAGE_LEN
  | input, _, [] => input
  | input, state, .byte b :: reads =>
    let (input, state) := pasteBytes input state [b]
    pasteLoop input state reads
  | input, state, .escape tail :: reads =>
    if tail = lit "[201~" then input
    else
      -- The escape is dropped, and what followed it kept.
      let (input, state) := pasteBytes input state tail
      pasteLoop input state reads

/-- The scan for the start of a trailing `@` token, over the input from its end: the index of the `@`. -/
def mentionScan : Bytes → Option Nat
  | [] => none
  | c :: front =>
    if c = 0x40 then if front = [] ∨ byteAt front 0 = 0x20 then some front.length else none
    else if c = 0x20 then none
    else mentionScan front

/-- Tab in INSERT mode, among the names in the room. -/
def completeMention (names : List (CBuf MAX_USERNAME_LEN)) (self : CBuf MAX_USERNAME_LEN)
    (input : CBuf MAX_MESSAGE_LEN) : CBuf MAX_MESSAGE_LEN :=
  match mentionScan input.bytes.reverse with
  | none => input
  | some atIdx =>
    let typed := input.bytes.drop (atIdx + 1)
    let isMatch (uname : CBuf MAX_USERNAME_LEN) :=
      if typed.length = 0 then uname != self else strncasecmpEq uname.bytes typed typed.length
    match names.find? isMatch with
    | none => input
    | some found =>
      let avail := MAX_MESSAGE_LEN - 1 - atIdx - 1
      if found.bytes = [] then input
      else if found.bytes.length + 1 ≤ avail then
        CBuf.copy _ (input.bytes.take (atIdx + 1) ++ found.bytes ++ [0x20])
      else input

/-- The keys that edit in INSERT mode. -/
inductive InsertKey
  | byte (b : UInt8) (rest : Bytes)
  | up
  | down
  | paste (reads : List PasteRead)
  | backspace
  | deleteWord
  | deleteLine
  | tab

/-- `handle_key` and the main loop in INSERT mode, for a key that sends nothing. -/
def insertKey (names : List (CBuf MAX_USERNAME_LEN)) (self : CBuf MAX_USERNAME_LEN)
    (e : Editor MAX_MESSAGE_LEN) : InsertKey → Editor MAX_MESSAGE_LEN
  | .byte b rest => e.byte b rest
  | .up => e.up
  | .down => e.down
  | .paste reads => { e with input := pasteLoop e.input .reset reads }
  | .backspace => e.backspace
  | .deleteWord => e.deleteWord
  | .deleteLine => e.clear
  | .tab => { e with input := completeMention names self e.input }

/-! ## No key puts a control in -/

theorem plain_of_high {s : Bytes} (h : ∀ b ∈ s, 0x80 ≤ b.toNat) : Plain s := by
  intro b hb
  have := h b hb
  constructor
  · rw [UInt8.le_iff_toNat_le]
    exact (show 0x20 ≤ 0x80 by omega).trans this
  · rintro rfl
    exact absurd this (by decide)

/-- A character of more than one byte has none below 0x80. -/
theorem plain_sequence {b : UInt8} {rest : Bytes} (hb : 128 ≤ b)
    (h : utf8IsValidSequence (b :: rest) (b :: rest).length = true) : Plain (b :: rest) := by
  rcases IsChar.cases h with ⟨c, hc, -, hlt⟩ | ⟨-, hhigh⟩
  · obtain rfl : b = c := (List.cons.inj hc).1
    rw [UInt8.le_iff_toNat_le] at hb
    exact absurd hb (Nat.not_le.2 hlt)
  · exact plain_of_high hhigh

section Append
variable {cap : Nat} [NeZero cap] {input : CBuf cap}

/-- What fits is appended in full, and what does not is not appended. -/
theorem appendBytes_bytes {bytes : Bytes} (h0 : 0 ∉ bytes) :
    (appendBytes input bytes).2.bytes =
      if input.bytes.length + bytes.length < cap then input.bytes ++ bytes else input.bytes := by
  unfold appendBytes
  split
  next hnil =>
    rw [hnil, List.append_nil]
    split <;> rfl
  split
  next hfull => rw [if_neg (by omega)]
  next hfits =>
    rw [if_pos (by omega)]
    refine CBuf.copy_bytes (fun h => ?_) (by rw [List.length_append]; omega)
    exact (List.mem_append.1 h).elim input.nul_free h0

/-- A character is appended as it is. -/
theorem appendUtf8Sequence_isChar {c : Bytes} (hc : IsChar c) :
    inputAppendUtf8Sequence input c = appendBytes input c := by
  have hlen := hc.length
  have hvalid : utf8IsValidSequence c c.length = true := hc
  unfold inputAppendUtf8Sequence
  rw [if_neg]
  rw [hvalid]
  rintro (h | h | h)
  · omega
  · omega
  · cases h

theorem appendBytes_plain (hi : Plain input.bytes) {bytes : Bytes} (hb : Plain bytes) :
    Plain (appendBytes input bytes).2.bytes := by
  unfold appendBytes
  split
  · exact hi
  split
  · exact hi
  · exact (plain_append.2 ⟨hi, hb⟩).copy cap

theorem inputAppendAscii_plain (hi : Plain input.bytes) (b : UInt8) : Plain (inputAppendAscii input b).2.bytes := by
  unfold inputAppendAscii
  split
  · exact hi
  · rename_i hb
    refine appendBytes_plain hi (plain_cons.2 ⟨?_, plain_nil⟩)
    rw [not_or, UInt8.not_lt, UInt8.not_le] at hb
    exact ⟨hb.1, UInt8.ne_of_lt hb.2⟩

theorem inputAppendUtf8Sequence_plain (hi : Plain input.bytes) {bytes : Bytes} (hb : Plain bytes) :
    Plain (inputAppendUtf8Sequence input bytes).2.bytes := by
  unfold inputAppendUtf8Sequence
  split
  · exact hi
  · exact appendBytes_plain hi hb

/-- A sequence under way has no byte below 0x80. -/
def Utf8State.High (state : Utf8State) : Prop := ∀ b ∈ state.bytes, 0x80 ≤ b.toNat

theorem Utf8State.high_reset : Utf8State.reset.High := fun _ h => by cases h

omit [NeZero cap] in
theorem startUtf8Sequence_plain (hi : Plain input.bytes) (b : UInt8) :
    Plain (startUtf8Sequence input b).2.1.bytes ∧ (startUtf8Sequence input b).2.2.High := by
  simp only [startUtf8Sequence]
  split
  · exact ⟨hi, Utf8State.high_reset⟩
  · rename_i hlen
    refine ⟨hi, fun c hc => ?_⟩
    obtain rfl := List.mem_singleton.1 hc
    have := utf8ByteLength_of_two_le (b := c) (by omega)
    omega

theorem appendPrintableByte_plain (hi : Plain input.bytes) {state : Utf8State} (hs : state.High) (b : UInt8) :
    Plain (appendPrintableByte input state b).2.1.bytes ∧ (appendPrintableByte input state b).2.2.High := by
  unfold appendPrintableByte
  by_cases hascii : b < 128
  · simp only [if_pos hascii]
    split
    · exact ⟨inputAppendAscii_plain hi b, Utf8State.high_reset⟩
    · exact ⟨inputAppendAscii_plain hi b, hs⟩
  simp only [if_neg hascii]
  split
  · exact startUtf8Sequence_plain hi b
  split
  · exact startUtf8Sequence_plain hi b
  have hhigh : Utf8State.High { state with bytes := state.bytes ++ [b] } := by
    intro c hc
    rcases List.mem_append.1 hc with hc | hc
    · exact hs c hc
    · obtain rfl := List.mem_singleton.1 hc
      rw [UInt8.not_lt, UInt8.le_iff_toNat_le] at hascii
      exact hascii
  split
  · exact ⟨inputAppendUtf8Sequence_plain hi (plain_of_high hhigh), Utf8State.high_reset⟩
  · exact ⟨hi, hhigh⟩

theorem inputAppendStreamByte_plain (hi : Plain input.bytes) {state : Utf8State} (hs : state.High) (b : UInt8)
    (pasteMode : Bool) : Plain (inputAppendStreamByte input state b pasteMode).2.1.bytes ∧
      (inputAppendStreamByte input state b pasteMode).2.2.High := by
  simp only [inputAppendStreamByte]
  generalize (if (pasteMode && (b == 0x0D || b == newline || b == 0x09)) = true then (0x20 : UInt8) else b) = b
  split
  · split
    · exact ⟨hi, Utf8State.high_reset⟩
    · exact ⟨hi, hs⟩
  · exact appendPrintableByte_plain hi hs b

end Append

theorem pasteBytes_plain {input : CBuf MAX_MESSAGE_LEN} (hi : Plain input.bytes) {state : Utf8State} (hs : state.High)
    (bytes : Bytes) : Plain (pasteBytes input state bytes).1.bytes ∧ (pasteBytes input state bytes).2.High := by
  induction bytes generalizing input state with
  | nil => exact ⟨hi, hs⟩
  | cons b bytes ih =>
    have h := inputAppendStreamByte_plain hi hs b true
    exact ih h.1 h.2

theorem pasteLoop_plain {input : CBuf MAX_MESSAGE_LEN} (hi : Plain input.bytes) {state : Utf8State} (hs : state.High)
    (reads : List PasteRead) : Plain (pasteLoop input state reads).bytes := by
  induction reads generalizing input state with
  | nil => exact hi
  | cons read reads ih =>
    cases read with
    | byte b =>
      have h := pasteBytes_plain hi hs [b]
      exact ih h.1 h.2
    | escape tail =>
      rw [pasteLoop]
      split
      · exact hi
      · have h := pasteBytes_plain hi hs tail
        exact ih h.1 h.2

theorem removeLastChar_subset (s : Bytes) : utf8RemoveLastChar s ⊆ s := fun b hb => by
  have := List.mem_of_mem_tail (List.mem_reverse.1 hb)
  exact List.mem_reverse.1 ((List.dropWhile_suffix _).subset this)

theorem removeLastWord_subset (s : Bytes) : utf8RemoveLastWord s ⊆ s := fun b hb => by
  have := (List.dropWhile_suffix _).subset (List.mem_reverse.1 hb)
  exact List.mem_reverse.1 ((List.dropWhile_suffix _).subset this)

theorem completeMention_plain {names : List (CBuf MAX_USERNAME_LEN)} (hn : ∀ name ∈ names, Plain name.bytes)
    (self : CBuf MAX_USERNAME_LEN) {input : CBuf MAX_MESSAGE_LEN} (hi : Plain input.bytes) :
    Plain (completeMention names self input).bytes := by
  simp only [completeMention]
  split
  · exact hi
  split
  · exact hi
  · rename_i found hfound
    split
    · exact hi
    split
    · refine Plain.copy ?_ _
      simp only [plain_append, plain_cons, plain_nil, and_true]
      exact ⟨⟨hi.subset (List.take_subset _ _), hn found (List.mem_of_find?_eq_some hfound)⟩, by decide⟩
    · exact hi

theorem promptByte_plain {username : CBuf MAX_USERNAME_LEN} (h : Plain username.bytes) (b : UInt8) (rest : Bytes) :
    Plain (promptByte username b rest).bytes := by
  unfold promptByte
  split
  · exact plain_nil.copy _
  split
  · exact (h.subset (removeLastWord_subset _)).copy _
  split
  · exact (h.subset (removeLastChar_subset _)).copy _
  rename_i hdel
  split
  · exact h
  rename_i hctl
  split
  · split
    · refine (plain_append.2 ⟨h, plain_cons.2 ⟨⟨UInt8.not_lt.1 hctl, fun hb => hdel (.inl hb)⟩, plain_nil⟩⟩).copy _
    · exact h
  rename_i hascii
  dsimp only
  split
  · exact h
  rename_i hlen
  split
  · exact h
  rename_i hvalid
  split
  · have hpos := utf8ByteLength_pos b
    have hseq : (b :: rest).length = utf8ByteLength b := by
      rw [List.length_cons]
      omega
    rw [Bool.not_eq_true', Bool.not_eq_false, ← hseq] at hvalid
    exact (plain_append.2 ⟨h, plain_sequence (UInt8.not_lt.1 hascii) hvalid⟩).copy _
  · exact h

namespace Editor
variable {cap : Nat} [NeZero cap]

/-- No line of the editor has a control in it. -/
protected structure Plain (e : Editor cap) : Prop where
  input : Tnt.Plain e.input.bytes
  history : ∀ line ∈ e.history, Tnt.Plain line.bytes

variable {e : Editor cap}

theorem plain_init : (init : Editor cap).Plain := ⟨plain_nil.copy cap, fun _ h => by cases h⟩

theorem Plain.clear (h : e.Plain) : e.clear.Plain := ⟨plain_nil.copy cap, h.history⟩

theorem Plain.byte (h : e.Plain) (b : UInt8) (rest : Bytes) : (e.byte b rest).Plain := by
  unfold Editor.byte
  split
  · exact ⟨inputAppendAscii_plain h.input b, h.history⟩
  split
  · rename_i hhigh
    dsimp only
    split
    · exact h
    rename_i hlen
    split
    · exact h
    rename_i hvalid
    have hpos := utf8ByteLength_pos b
    have hseq : (b :: rest).length = utf8ByteLength b := by
      rw [List.length_cons]
      omega
    rw [Bool.not_eq_true', Bool.not_eq_false, ← hseq] at hvalid
    exact ⟨inputAppendUtf8Sequence_plain h.input (plain_sequence hhigh hvalid), h.history⟩
  · exact h

omit [NeZero cap] in
theorem Plain.getD (h : e.Plain) (i : Nat) : Tnt.Plain (e.history.getD i e.input).bytes := by
  rw [List.getD_eq_getElem?_getD]
  cases hi : e.history[i]? with
  | none => exact h.input
  | some line => exact h.history line (List.mem_of_getElem? hi)

omit [NeZero cap] in
theorem Plain.up (h : e.Plain) : e.up.Plain := by
  unfold Editor.up
  split
  · exact ⟨h.getD _, h.history⟩
  · exact h

theorem Plain.down (h : e.Plain) : e.down.Plain := by
  unfold Editor.down
  split
  · exact ⟨h.getD _, h.history⟩
  · exact ⟨plain_nil.copy cap, h.history⟩

omit [NeZero cap] in
/-- A line of the history was in it, or is the one that is recorded. -/
theorem mem_record {line l : CBuf cap} (h : l ∈ (e.record line).history) : l ∈ e.history ∨ l = line := by
  rcases List.mem_append.1 h with h | h
  · split at h
    · exact .inl (List.mem_of_mem_tail h)
    · exact .inl h
  · exact .inr (List.mem_singleton.1 h)

omit [NeZero cap] in
theorem Plain.record (h : e.Plain) {line : CBuf cap} (hl : Tnt.Plain line.bytes) : (e.record line).Plain := by
  refine ⟨h.input, fun l hmem => ?_⟩
  rcases mem_record hmem with hmem | rfl
  · exact h.history l hmem
  · exact hl

theorem Plain.backspace (h : e.Plain) : e.backspace.Plain :=
  ⟨(h.input.subset (removeLastChar_subset _)).copy cap, h.history⟩

theorem Plain.deleteWord (h : e.Plain) : e.deleteWord.Plain :=
  ⟨(h.input.subset (removeLastWord_subset _)).copy cap, h.history⟩

end Editor

/-- No key of INSERT mode puts a control into the input. -/
theorem insertKey_plain {names : List (CBuf MAX_USERNAME_LEN)} (hn : ∀ name ∈ names, Plain name.bytes)
    (self : CBuf MAX_USERNAME_LEN) {e : Editor MAX_MESSAGE_LEN} (h : e.Plain) (key : InsertKey) :
    (insertKey names self e key).Plain := by
  cases key with
  | byte b rest => exact h.byte b rest
  | up => exact h.up
  | down => exact h.down
  | paste reads => exact ⟨pasteLoop_plain h.input Utf8State.high_reset reads, h.history⟩
  | backspace => exact h.backspace
  | deleteWord => exact h.deleteWord
  | deleteLine => exact h.clear
  | tab => exact ⟨completeMention_plain hn self h.input, h.history⟩

end Tnt
