import Tnt.Lib.Runs
import Tnt.Input
/-!
# INSERT mode, read by read (`input.c`)

A session in INSERT mode goes from one read of its channel to the next: for a key, behind an escape, inside a
bracketed paste, or for the rest of a character. A read gives any number of bytes up to what it asks for, or
none when it times out. `insertMode_sound`: whatever the reads give, the input is text
without controls, and so are the lines that were sent.
-/
open BaseLib

namespace Tnt

/-- What the session waits for. -/
inductive Awaits
  | key
  | escape
  | bracket
  | pasteStart (got : Bytes)
  | paste (state : Utf8State)
  | pasteTail (state : Utf8State) (got : Bytes)
  /-- No read: the bytes behind a stray escape go into the input. -/
  | stray (state : Utf8State) (tail : Bytes)
  | sequence (b : UInt8)

/-- How many bytes the read asks for. -/
def Awaits.asks : Awaits → Nat
  | key | escape | bracket | paste _ => 1
  | pasteStart got => 3 - got.length
  | pasteTail _ got => 5 - got.length
  | stray _ _ => 0
  | sequence b => utf8ByteLength b - 1

/-- A session's part in editing; `inserting` is false in other modes and where a page covers the room. -/
structure InsertState where
  inserting : Bool
  awaits : Awaits
  editor : Editor MAX_MESSAGE_LEN

namespace InsertState

/-- A session begins in INSERT mode, perhaps under the message of the day. -/
def init (motd : Bool) : InsertState := ⟨!motd, .key, .init⟩

/-- The mode goes to NORMAL. -/
def leave (s : InsertState) : InsertState := { s with inserting := false, awaits := .key }

end InsertState

/-- Enter. -/
def Editor.enter {cap : Nat} [NeZero cap] (e : Editor cap) : Editor cap :=
  if e.input.bytes = [] then e else (e.record e.input).clear

/-- What a read gives, and who is in the room then. -/
structure ChannelRead where
  got : Bytes
  names : List (CBuf MAX_USERNAME_LEN)
  self : CBuf MAX_USERNAME_LEN

/-- `handle_key` in INSERT mode and, where that does not consume the key, the main loop. -/
def InsertState.handleKey (s : InsertState) (r : ChannelRead) (b : UInt8) : InsertState :=
  if b = 3 then s.leave
  else if b = 27 then { s with awaits := .escape }
  else if b = 0x0D ∨ b = newline then { s with editor := s.editor.enter }
  else if b = 127 ∨ b = 8 then { s with editor := s.editor.backspace }
  else if b = 23 then { s with editor := s.editor.deleteWord }
  else if b = 21 then { s with editor := s.editor.clear }
  else if b = 9 then { s with editor := { s.editor with input := completeMention r.names r.self s.editor.input } }
  else if b ≥ 128 ∧ utf8ByteLength b > 1 then { s with awaits := .sequence b }
  else { s with editor := s.editor.byte b [] }

/-- A byte of a paste. -/
def InsertState.pasted (s : InsertState) (state : Utf8State) (b : UInt8) (awaits : Utf8State → Awaits) : InsertState :=
  let (_, input, state) := inputAppendStreamByte s.editor.input state b true
  { s with awaits := awaits state, editor := { s.editor with input := input } }

/-- A read returns, with nothing where it has timed out. -/
def InsertState.read (s : InsertState) (r : ChannelRead) : InsertState :=
  match s.awaits with
  | .key =>
    match r.got with
    | [] => s
    | b :: _ => s.handleKey r b
  | .escape => if r.got = [0x5B] then { s with awaits := .bracket } else s.leave
  | .bracket =>
    if r.got = [0x41] then { s with awaits := .key, editor := s.editor.up }
    else if r.got = [0x42] then { s with awaits := .key, editor := s.editor.down }
    else if r.got = [0x32] then { s with awaits := .pasteStart [] }
    else s.leave
  | .pasteStart got =>
    let got := got ++ r.got
    if r.got ≠ [] ∧ got.length < 3 then { s with awaits := .pasteStart got }
    else if got = lit "00~" then { s with awaits := .paste .reset }
    else { s with awaits := .key }
  | .paste state =>
    match r.got with
    | [] => { s with awaits := .key }
    | b :: _ => if b = 27 then { s with awaits := .pasteTail state [] } else s.pasted state b .paste
  | .pasteTail state got =>
    let got := got ++ r.got
    if r.got ≠ [] ∧ got.length < 5 then { s with awaits := .pasteTail state got }
    else if got = lit "[201~" then { s with awaits := .key }
    else { s with awaits := .stray state got }
  | .stray state tail =>
    match tail with
    | [] => { s with awaits := .paste state }
    | b :: tail => s.pasted state b (.stray · tail)
  | .sequence b => { s with awaits := .key, editor := s.editor.byte b r.got }

inductive InsertEvent
  | read (r : ChannelRead)
  /-- A key of another mode or of a page, after which the session may be in INSERT mode. -/
  | elsewhere (inserting : Bool)

/-- In INSERT mode a read gives at most as many bytes as it asks for; no other key touches the input. -/
def insertStep (s : InsertState) : InsertEvent → Option InsertState
  | .read r => if s.inserting ∧ r.got.length ≤ s.awaits.asks then some (s.read r) else none
  | .elsewhere inserting => if s.inserting then none else some { s with inserting := inserting }

/-! ## Text without controls -/

/-- Valid UTF-8 without controls. -/
structure IsText (s : Bytes) : Prop where
  valid : utf8IsValidString s = true
  plain : Plain s

theorem isText_nil : IsText [] := ⟨valid_nil, plain_nil⟩

theorem isText_copy_nil (cap : Nat) [NeZero cap] : IsText (CBuf.copy cap []).bytes := by
  rw [CBuf.copy_bytes List.not_mem_nil (Nat.pos_of_ne_zero (NeZero.ne cap))]
  exact isText_nil

/-- A valid string that fits is copied as it is. -/
theorem copy_bytes_of_valid {s : Bytes} (hs : utf8IsValidString s = true) {cap : Nat} [NeZero cap]
    (h : s.length < cap) :
    (CBuf.copy cap s).bytes = s := CBuf.copy_bytes (valid_zero_notMem hs) h

section Append
variable {cap : Nat} [NeZero cap] {input : CBuf cap}

theorem appendBytes_valid (hi : utf8IsValidString input.bytes = true) {bytes : Bytes} (hb : IsChar bytes) :
    utf8IsValidString (appendBytes input bytes).2.bytes = true := by
  rw [appendBytes_bytes hb.zero_notMem]
  split
  · rw [valid_append hi]
    exact valid_of_isChar hb
  · exact hi

theorem isChar_of_ascii {b : UInt8} (h : 32 ≤ b) (h' : b < 127) : IsChar [b] := by
  refine (isChar_single b).2 ⟨?_, Nat.lt_of_lt_of_le (UInt8.lt_iff_toNat_lt.1 h') (by decide)⟩
  rintro rfl
  exact absurd h (by decide)

theorem inputAppendAscii_valid (hi : utf8IsValidString input.bytes = true) (b : UInt8) :
    utf8IsValidString (inputAppendAscii input b).2.bytes = true := by
  unfold inputAppendAscii
  split
  · exact hi
  next hb =>
    rw [not_or, UInt8.not_lt, UInt8.not_le] at hb
    exact appendBytes_valid hi (isChar_of_ascii hb.1 hb.2)

theorem inputAppendUtf8Sequence_valid (hi : utf8IsValidString input.bytes = true) (bytes : Bytes) :
    utf8IsValidString (inputAppendUtf8Sequence input bytes).2.bytes = true := by
  unfold inputAppendUtf8Sequence
  split
  · exact hi
  next hchar =>
    simp only [not_or, Bool.not_eq_true', Bool.not_eq_false] at hchar
    exact appendBytes_valid hi hchar.2.2

omit [NeZero cap] in
/-- Starting a sequence leaves the input. -/
theorem startUtf8Sequence_input (b : UInt8) : (startUtf8Sequence input b).2.1 = input := by
  unfold startUtf8Sequence
  dsimp only
  split <;> rfl

theorem appendPrintableByte_valid (hi : utf8IsValidString input.bytes = true) (state : Utf8State) (b : UInt8) :
    utf8IsValidString (appendPrintableByte input state b).2.1.bytes = true := by
  unfold appendPrintableByte
  by_cases hascii : b < 128
  · simp only [if_pos hascii]
    split <;> exact inputAppendAscii_valid hi b
  simp only [if_neg hascii]
  split
  · rw [startUtf8Sequence_input]
    exact hi
  split
  · rw [startUtf8Sequence_input]
    exact hi
  split
  · exact inputAppendUtf8Sequence_valid hi _
  · exact hi

theorem inputAppendStreamByte_valid (hi : utf8IsValidString input.bytes = true) (state : Utf8State) (b : UInt8)
    (pasteMode : Bool) : utf8IsValidString (inputAppendStreamByte input state b pasteMode).2.1.bytes = true := by
  simp only [inputAppendStreamByte]
  generalize (if (pasteMode && (b == 0x0D || b == newline || b == 0x09)) = true then (0x20 : UInt8) else b) = b
  split
  · split <;> exact hi
  · exact appendPrintableByte_valid hi state b

end Append

/-! ## Names that the Tab key puts in -/

/-- The scan stops at an `@`. -/
theorem mentionScan_eq_some {s : Bytes} {i : Nat} (h : mentionScan s = some i) :
    ∃ typed front, s = typed ++ 0x40 :: front ∧ front.length = i := by
  induction s with
  | nil => cases h
  | cons c front ih =>
    rw [mentionScan] at h
    split at h
    next hat =>
      split at h
      · cases h
        exact ⟨[], front, by rw [hat]; rfl, rfl⟩
      · cases h
    split at h
    · cases h
    · obtain ⟨typed, front', rfl, hlen⟩ := ih h
      exact ⟨c :: typed, front', rfl, hlen⟩

/-- In the input as it is typed, up to the `@`. -/
theorem mentionScan_split {s : Bytes} {i : Nat} (h : mentionScan s.reverse = some i) :
    ∃ front typed, s = front ++ 0x40 :: typed ∧ front.length = i ∧ s.take (i + 1) = front ++ [0x40] := by
  obtain ⟨typed, front, hs, hlen⟩ := mentionScan_eq_some h
  have hsplit : s = front.reverse ++ 0x40 :: typed.reverse := by
    rw [← List.reverse_reverse s, hs]
    simp
  have hlength : front.reverse.length = i := by rw [List.length_reverse, hlen]
  refine ⟨front.reverse, typed.reverse, hsplit, hlength, ?_⟩
  rw [hsplit, List.take_append, List.take_of_length_le (by omega), hlength, Nat.add_sub_cancel_left]
  rfl

/-- The name takes the place of what was typed behind the `@`; the buffer has room for it. -/
theorem completeMention_eq (names : List (CBuf MAX_USERNAME_LEN)) (self : CBuf MAX_USERNAME_LEN)
    (input : CBuf MAX_MESSAGE_LEN) : completeMention names self input = input ∨
      ∃ front typed, input.bytes = front ++ 0x40 :: typed ∧ ∃ found ∈ names,
        (completeMention names self input).bytes = front ++ 0x40 :: (found.bytes ++ [0x20]) := by
  unfold completeMention
  split
  · exact .inl rfl
  next atIdx hscan =>
    dsimp only
    split
    · exact .inl rfl
    next found hfound =>
      split
      · exact .inl rfl
      split
      next havail =>
        obtain ⟨front, typed, hinput, rfl, htake⟩ := mentionScan_split hscan
        refine .inr ⟨front, typed, hinput, found, List.mem_of_find?_eq_some hfound, ?_⟩
        have hlen := input.fits
        have hnul := input.nul_free
        rw [hinput, List.length_append, List.length_cons] at hlen
        rw [hinput, List.mem_append, List.mem_cons, not_or, not_or] at hnul
        rw [htake, CBuf.copy_bytes]
        · simp
        · simp only [List.mem_append, List.mem_singleton, not_or]
          exact ⟨⟨⟨hnul.1, by decide⟩, found.nul_free⟩, by decide⟩
        · simp only [List.length_append, List.length_singleton, MAX_MESSAGE_LEN] at havail hlen ⊢
          omega
      · exact .inl rfl

theorem completeMention_valid {names : List (CBuf MAX_USERNAME_LEN)}
    (hn : ∀ name ∈ names, utf8IsValidString name.bytes = true)
    (self : CBuf MAX_USERNAME_LEN) {input : CBuf MAX_MESSAGE_LEN} (hi : utf8IsValidString input.bytes = true) :
    utf8IsValidString (completeMention names self input).bytes = true := by
  rcases completeMention_eq names self input with hsame | ⟨front, typed, hinput, found, hfound, hnew⟩
  · rw [hsame]
    exact hi
  · rw [hinput, valid_split (by decide) (by decide), Bool.and_eq_true] at hi
    rw [hnew, valid_split (by decide) (by decide), hi.1, valid_append (hn found hfound)]
    decide

/-! ## Editors -/

namespace Editor
variable {cap : Nat} [NeZero cap]

/-- The input and the lines that were sent are text without controls, at most sixteen of them, and the position is
among them or behind them. -/
structure Sound (e : Editor cap) : Prop where
  input : IsText e.input.bytes
  history : ∀ line ∈ e.history, IsText line.bytes
  pos : e.historyPos ≤ e.history.length
  count : e.history.length ≤ 16

variable {e : Editor cap}

omit [NeZero cap] in
theorem Sound.plain (h : e.Sound) : e.Plain := ⟨h.input.plain, fun line hl => (h.history line hl).plain⟩

omit [NeZero cap] in
/-- The input may change to another text. -/
theorem Sound.withInput (h : e.Sound) {input : CBuf cap} (hv : utf8IsValidString input.bytes = true)
    (hp : Tnt.Plain input.bytes) : Sound { e with input := input } := ⟨⟨hv, hp⟩, h.history, h.pos, h.count⟩

theorem sound_init : (init : Editor cap).Sound :=
  ⟨isText_copy_nil cap, fun _ h => absurd h List.not_mem_nil, Nat.le_refl _, Nat.zero_le _⟩

theorem Sound.clear (h : e.Sound) : e.clear.Sound :=
  h.withInput (isText_copy_nil cap).valid (isText_copy_nil cap).plain

/-- A typed byte changes the input only. -/
theorem byte_eq (b : UInt8) (rest : Bytes) : e.byte b rest = { e with input := (e.byte b rest).input } := by
  unfold Editor.byte
  split
  · rfl
  split
  · dsimp only
    split
    · rfl
    split <;> rfl
  · rfl

theorem byte_valid (h : utf8IsValidString e.input.bytes = true) (b : UInt8) (rest : Bytes) :
    utf8IsValidString (e.byte b rest).input.bytes = true := by
  unfold Editor.byte
  split
  · exact inputAppendAscii_valid h b
  split
  · dsimp only
    split
    · exact h
    split
    · exact h
    · exact inputAppendUtf8Sequence_valid h _
  · exact h

theorem Sound.byte (h : e.Sound) (b : UInt8) (rest : Bytes) : (e.byte b rest).Sound := by
  rw [byte_eq]
  exact h.withInput (byte_valid h.input.valid b rest) (h.plain.byte b rest).input

omit [NeZero cap] in
/-- A line of the history, or the input where there is none. -/
theorem Sound.getD (h : e.Sound) (i : Nat) : IsText (e.history.getD i e.input).bytes := by
  rw [List.getD_eq_getElem?_getD]
  cases hi : e.history[i]? with
  | none => exact h.input
  | some line => exact h.history line (List.mem_of_getElem? hi)

omit [NeZero cap] in
theorem Sound.up (h : e.Sound) : e.up.Sound := by
  unfold Editor.up
  split
  · exact ⟨h.getD _, h.history, (Nat.sub_le _ _).trans h.pos, h.count⟩
  · exact h

theorem Sound.down (h : e.Sound) : e.down.Sound := by
  unfold Editor.down
  split
  next hpos => exact ⟨h.getD _, h.history, hpos.le, h.count⟩
  · exact ⟨isText_copy_nil cap, h.history, Nat.le_refl _, h.count⟩

omit [NeZero cap] in
/-- The oldest line makes room. -/
theorem length_record (h : e.Sound) (line : CBuf cap) : (e.record line).history.length ≤ 16 := by
  have := h.count
  unfold Editor.record
  dsimp only
  rw [List.length_append, List.length_singleton]
  split
  · rw [List.length_tail]
    omega
  · omega

omit [NeZero cap] in
theorem Sound.record (h : e.Sound) {line : CBuf cap} (hl : IsText line.bytes) : (e.record line).Sound := by
  refine ⟨h.input, fun l hmem => ?_, Nat.le_refl _, length_record h line⟩
  rcases mem_record hmem with hmem | rfl
  · exact h.history l hmem
  · exact hl

theorem Sound.enter (h : e.Sound) : e.enter.Sound := by
  unfold Editor.enter
  split
  · exact h
  · exact (h.record h.input).clear

/-- A valid front or rest of the input that replaces it. -/
theorem Sound.shortened (h : e.Sound) {s : Bytes} (hv : utf8IsValidString s = true) (hs : s ⊆ e.input.bytes)
    (hlen : s.length ≤ e.input.bytes.length) : Sound { e with input := CBuf.copy cap s } := by
  refine h.withInput ?_ ((h.input.plain.subset hs).copy cap)
  rw [copy_bytes_of_valid hv (hlen.trans_lt e.input.fits)]
  exact hv

theorem length_removeLastChar_le (s : Bytes) : (utf8RemoveLastChar s).length ≤ s.length := by
  have := (List.dropWhile_suffix isContinuation (l := s.reverse)).length_le
  simp only [utf8RemoveLastChar, List.length_reverse, List.length_tail] at this ⊢
  omega

theorem length_removeLastWord_le (s : Bytes) : (utf8RemoveLastWord s).length ≤ s.length := by
  have := ((List.dropWhile_suffix (· != 0x20)).trans (List.dropWhile_suffix (· == 0x20) (l := s.reverse))).length_le
  simpa only [utf8RemoveLastWord, List.length_reverse] using this

theorem Sound.backspace (h : e.Sound) : e.backspace.Sound :=
  h.shortened (valid_removeLastChar h.input.valid) (removeLastChar_subset _) (length_removeLastChar_le _)

theorem Sound.deleteWord (h : e.Sound) : e.deleteWord.Sound :=
  h.shortened (valid_removeLastWord h.input.valid) (removeLastWord_subset _) (length_removeLastWord_le _)

end Editor

/-! ## Runs -/

/-- A sequence under way has no byte below 0x80. -/
def Awaits.High : Awaits → Prop
  | .paste state | .pasteTail state _ | .stray state _ => state.High
  | _ => True

structure InsertState.Sound (s : InsertState) : Prop where
  editor : s.editor.Sound
  awaits : s.awaits.High

namespace InsertState
variable {s : InsertState}

theorem sound_init (motd : Bool) : (init motd).Sound := ⟨Editor.sound_init, trivial⟩

theorem Sound.leave (h : s.Sound) : s.leave.Sound := ⟨h.editor, trivial⟩

theorem Sound.pasted (h : s.Sound) {state : Utf8State} (hs : state.High) (b : UInt8) {awaits : Utf8State → Awaits}
    (ha : ∀ state : Utf8State, state.High → (awaits state).High) : (s.pasted state b awaits).Sound := by
  have hplain := inputAppendStreamByte_plain h.editor.input.plain hs b true
  exact ⟨h.editor.withInput (inputAppendStreamByte_valid h.editor.input.valid state b true) hplain.1, ha _ hplain.2⟩

theorem Sound.handleKey (h : s.Sound) (hkey : s.awaits = .key) {r : ChannelRead}
    (hn : ∀ name ∈ r.names, IsText name.bytes) (b : UInt8) :
    (s.handleKey r b).Sound := by
  have hidle : s.awaits.High := by rw [hkey]; trivial
  unfold InsertState.handleKey
  split_ifs
  · exact h.leave
  · exact ⟨h.editor, trivial⟩
  · exact ⟨h.editor.enter, hidle⟩
  · exact ⟨h.editor.backspace, hidle⟩
  · exact ⟨h.editor.deleteWord, hidle⟩
  · exact ⟨h.editor.clear, hidle⟩
  · refine ⟨h.editor.withInput ?_ ?_, hidle⟩
    · exact completeMention_valid (fun name hname => (hn name hname).valid) r.self h.editor.input.valid
    · exact completeMention_plain (fun name hname => (hn name hname).plain) r.self h.editor.input.plain
  · exact ⟨h.editor, trivial⟩
  · exact ⟨h.editor.byte b [], hidle⟩

/-- Whatever a read gives, the input stays text without controls. -/
theorem Sound.read (h : s.Sound) {r : ChannelRead} (hn : ∀ name ∈ r.names, IsText name.bytes) : (s.read r).Sound := by
  have hawaits := h.awaits
  unfold InsertState.read
  cases ha : s.awaits with
  | key =>
    dsimp only
    split
    · exact h
    · exact h.handleKey ha hn _
  | escape =>
    dsimp only
    split
    · exact ⟨h.editor, trivial⟩
    · exact h.leave
  | bracket =>
    dsimp only
    split_ifs
    · exact ⟨h.editor.up, trivial⟩
    · exact ⟨h.editor.down, trivial⟩
    · exact ⟨h.editor, trivial⟩
    · exact h.leave
  | pasteStart got =>
    dsimp only
    split_ifs
    · exact ⟨h.editor, trivial⟩
    · exact ⟨h.editor, Utf8State.high_reset⟩
    · exact ⟨h.editor, trivial⟩
  | paste state =>
    rw [ha] at hawaits
    dsimp only
    split
    · exact ⟨h.editor, trivial⟩
    split
    · exact ⟨h.editor, hawaits⟩
    · exact h.pasted hawaits _ fun _ hs => hs
  | pasteTail state got =>
    rw [ha] at hawaits
    dsimp only
    split_ifs
    · exact ⟨h.editor, hawaits⟩
    · exact ⟨h.editor, trivial⟩
    · exact ⟨h.editor, hawaits⟩
  | stray state tail =>
    rw [ha] at hawaits
    dsimp only
    split
    · exact ⟨h.editor, hawaits⟩
    · exact h.pasted hawaits _ fun _ hs => hs
  | sequence b => exact ⟨h.editor.byte b r.got, trivial⟩

end InsertState

/-- The names in the room are text without controls. -/
def InsertEvent.NamesClean : InsertEvent → Prop
  | .read r => ∀ name ∈ r.names, IsText name.bytes
  | .elsewhere _ => True

theorem insertStep_sound {s s' : InsertState} {e : InsertEvent} (h : s.Sound) (hn : e.NamesClean)
    (hstep : insertStep s e = some s') : s'.Sound := by
  cases e with
  | read r =>
    replace hstep : (if s.inserting ∧ r.got.length ≤ s.awaits.asks then some (s.read r) else none) = some s' := hstep
    split at hstep
    · cases hstep
      exact h.read hn
    · cases hstep
  | elsewhere inserting =>
    replace hstep : (if s.inserting then none else some { s with inserting := inserting }) = some s' := hstep
    split at hstep
    · cases hstep
    · cases hstep
      exact ⟨h.editor, h.awaits⟩

/-- Whatever the channel gives, and in whatever pieces, the input is text without controls that fits its buffer,
and so are the lines of the history, among which or behind which its position is. -/
theorem insertMode_sound (motd : Bool) {es : List InsertEvent} (hn : ∀ e ∈ es, e.NamesClean) {s : InsertState}
    (h : exec insertStep (.init motd) es = some s) :
    (IsText s.editor.input.bytes ∧ s.editor.input.bytes.length ≤ MAX_MESSAGE_LEN - 1) ∧
      (∀ line ∈ s.editor.history, IsText line.bytes ∧ line.bytes.length ≤ MAX_MESSAGE_LEN - 1) ∧
        s.editor.historyPos ≤ s.editor.history.length ∧ s.editor.history.length ≤ 16 := by
  have hmeets : Meets insertStep (fun _ e => e.NamesClean) (.init motd) es :=
    meets_iff.2 fun pre e suf hes _ _ => hn e (by simp [hes])
  have hsound : s.Sound := exec_inv_of_meets InsertState.Sound (fun _ _ _ hi hp hs => insertStep_sound hi hp hs)
    (InsertState.sound_init motd) hmeets h
  have hfits (b : CBuf MAX_MESSAGE_LEN) : b.bytes.length ≤ MAX_MESSAGE_LEN - 1 := Nat.le_sub_one_of_lt b.fits
  exact ⟨⟨hsound.editor.input, hfits _⟩, fun line hl => ⟨hsound.editor.history line hl, hfits line⟩,
    hsound.editor.pos, hsound.editor.count⟩

/-- A read of some bytes, with nobody named in the room. -/
def gives (got : Bytes) : InsertEvent := .read ⟨got, [], CBuf.copy _ []⟩

/-! ## Whole keys -/

/-- What a read inside a paste can be: an escape has its own case, and its tail at most five bytes. -/
def PasteRead.Fits : PasteRead → Prop
  | .byte b => b ≠ 27
  | .escape tail => tail.length ≤ 5

def InsertKey.Fits : InsertKey → Prop
  | .byte b rest => 32 ≤ b ∧ b ≠ 127 ∧ rest.length ≤ utf8ByteLength b - 1
  | .paste reads => ∀ read ∈ reads, read.Fits
  | _ => True

/-- The reads of a typed byte: its own, and that of the rest where it begins a longer character. -/
def typedReads (b : UInt8) (rest : Bytes) : List InsertEvent :=
  if utf8ByteLength b > 1 then [gives [b], gives rest] else [gives [b]]

theorem exec_typedReads (e : Editor MAX_MESSAGE_LEN) {b : UInt8} {rest : Bytes} (hb : 32 ≤ b) (hdel : b ≠ 127)
    (hrest : rest.length ≤ utf8ByteLength b - 1) :
    exec insertStep ⟨true, .key, e⟩ (typedReads b rest) = some ⟨true, .key, e.byte b rest⟩ := by
  have hne {c : UInt8} (hc : c < 32) : b ≠ c := by
    rintro rfl
    exact absurd hb (UInt8.not_le.2 hc)
  have hkey : InsertState.handleKey ⟨true, .key, e⟩ ⟨[b], [], CBuf.copy _ []⟩ b =
      if b ≥ 128 ∧ utf8ByteLength b > 1 then ⟨true, .sequence b, e⟩ else ⟨true, .key, e.byte b []⟩ := by
    unfold InsertState.handleKey
    rw [if_neg (hne (by decide)), if_neg (hne (by decide)), if_neg (not_or.2 ⟨hne (by decide), hne (by decide)⟩),
      if_neg (not_or.2 ⟨hdel, hne (by decide)⟩), if_neg (hne (by decide)), if_neg (hne (by decide)),
      if_neg (hne (by decide))]
  have hfirst : insertStep ⟨true, .key, e⟩ (gives [b]) =
      some (if b ≥ 128 ∧ utf8ByteLength b > 1 then ⟨true, .sequence b, e⟩ else ⟨true, .key, e.byte b []⟩) := by
    rw [← hkey]
    rfl
  unfold typedReads
  split
  next hlong =>
    have hhigh : b ≥ 128 := by
      have := utf8ByteLength_of_two_le hlong
      rw [ge_iff_le, UInt8.le_iff_toNat_le]
      exact Nat.le_trans (by decide) this
    rw [exec_cons, hfirst, if_pos ⟨hhigh, hlong⟩]
    show (if true = true ∧ rest.length ≤ utf8ByteLength b - 1 then _ else none : Option InsertState).bind _ = _
    rw [if_pos ⟨rfl, hrest⟩]
    rfl
  next hshort =>
    rw [List.length_eq_zero_iff.1 (show rest.length = 0 by omega), exec_cons, hfirst, if_neg fun h => hshort h.2]
    rfl

/-- The bytes behind a stray escape go in one after the other. -/
theorem exec_stray (e : Editor MAX_MESSAGE_LEN) (state : Utf8State) (tail : Bytes) :
    exec insertStep ⟨true, .stray state tail, e⟩ (List.replicate (tail.length + 1) (gives [])) =
      some ⟨true, .paste (pasteBytes e.input state tail).2, { e with input := (pasteBytes e.input state tail).1 }⟩ := by
  induction tail generalizing e state with
  | nil => rfl
  | cons b tail ih =>
    exact ih { e with input := (inputAppendStreamByte e.input state b true).2.1 }
      (inputAppendStreamByte e.input state b true).2.2

/-- The read of the tail, which stops early where there are fewer bytes than five. -/
theorem exec_pasteTail (e : Editor MAX_MESSAGE_LEN) (state : Utf8State) {tail : Bytes} (h : tail.length ≤ 5) :
    ∃ es, exec insertStep ⟨true, .pasteTail state [], e⟩ es =
      some ⟨true, if tail = lit "[201~" then .key else .stray state tail, e⟩ := by
  have hread {got all : Bytes} (hall : got ++ all = tail) (hend : all = [] ∨ tail.length = 5)
    (hfits : all.length ≤ 5 - got.length) :
      exec insertStep ⟨true, .pasteTail state got, e⟩ [gives all] =
        some ⟨true, if tail = lit "[201~" then .key else .stray state tail, e⟩ := by
    rw [exec_cons]
    show (if true = true ∧ all.length ≤ 5 - got.length then _ else none : Option InsertState).bind _ = _
    rw [if_pos ⟨rfl, hfits⟩]
    show some (if all ≠ [] ∧ (got ++ all).length < 5 then (⟨true, .pasteTail state (got ++ all), e⟩ : InsertState)
      else if got ++ all = lit "[201~" then ⟨true, .key, e⟩ else ⟨true, .stray state (got ++ all), e⟩) = _
    rw [hall, if_neg (by rintro ⟨hne, hlt⟩; exact hend.elim hne (by omega))]
    split <;> rfl
  by_cases hfull : tail.length = 5
  · exact ⟨[gives tail], hread rfl (.inr hfull) h⟩
  by_cases hnil : tail = []
  · exact ⟨[gives []], hread hnil.symm (.inl rfl) (Nat.zero_le _)⟩
  · refine ⟨[gives tail, gives []], ?_⟩
    have hfirst : insertStep ⟨true, .pasteTail state [], e⟩ (gives tail) = some ⟨true, .pasteTail state tail, e⟩ := by
      show (if true = true ∧ tail.length ≤ 5 then _ else none : Option InsertState) = _
      rw [if_pos ⟨rfl, h⟩]
      show some (if tail ≠ [] ∧ tail.length < 5 then (⟨true, .pasteTail state tail, e⟩ : InsertState) else _) = _
      rw [if_pos ⟨hnil, by omega⟩]
    rw [exec_cons, hfirst]
    exact hread (List.append_nil tail) (.inl rfl) (Nat.zero_le _)

/-- A paste, read by read. -/
theorem exists_reads_paste (e : Editor MAX_MESSAGE_LEN) (state : Utf8State) {reads : List PasteRead}
    (h : ∀ read ∈ reads, read.Fits) :
    ∃ es, exec insertStep ⟨true, .paste state, e⟩ es =
      some ⟨true, .key, { e with input := pasteLoop e.input state reads }⟩ := by
  induction reads generalizing e state with
  | nil => exact ⟨[gives []], rfl⟩
  | cons read reads ih =>
    have hrest := fun read hread => h read (List.mem_cons_of_mem _ hread)
    cases read with
    | byte b =>
      obtain ⟨es, hes⟩ := ih { e with input := (pasteBytes e.input state [b]).1 } (pasteBytes e.input state [b]).2 hrest
      refine ⟨gives [b] :: es, ?_⟩
      rw [exec_cons]
      show (some (if b = 27 then (⟨true, .pasteTail state [], e⟩ : InsertState) else _)).bind _ = _
      rw [if_neg (h (.byte b) List.mem_cons_self)]
      exact hes
    | escape tail =>
      obtain ⟨es, hes⟩ := exec_pasteTail e state (h (.escape tail) List.mem_cons_self)
      rw [pasteLoop]
      split
      next hend =>
        rw [if_pos hend] at hes
        exact ⟨gives [27] :: es, hes⟩
      next hend =>
        rw [if_neg hend] at hes
        obtain ⟨fs, hfs⟩ :=
          ih { e with input := (pasteBytes e.input state tail).1 } (pasteBytes e.input state tail).2 hrest
        refine ⟨gives [27] :: es ++ (List.replicate (tail.length + 1) (gives []) ++ fs), ?_⟩
        rw [exec_append]
        show (exec insertStep ⟨true, .pasteTail state [], e⟩ es).bind _ = _
        rw [hes, Option.bind_some, exec_append, exec_stray]
        exact hfs

/-- Every key of INSERT mode is a sequence of reads. -/
theorem exists_reads (names : List (CBuf MAX_USERNAME_LEN)) (self : CBuf MAX_USERNAME_LEN) (e : Editor MAX_MESSAGE_LEN)
    {key : InsertKey} (h : key.Fits) :
    ∃ es, exec insertStep ⟨true, .key, e⟩ es = some ⟨true, .key, insertKey names self e key⟩ := by
  cases key with
  | byte b rest => exact ⟨typedReads b rest, exec_typedReads e h.1 h.2.1 h.2.2⟩
  | up => exact ⟨[gives [27], gives [0x5B], gives [0x41]], rfl⟩
  | down => exact ⟨[gives [27], gives [0x5B], gives [0x42]], rfl⟩
  | paste reads =>
    obtain ⟨es, hes⟩ := exists_reads_paste e .reset h
    exact ⟨[gives [27], gives [0x5B], gives [0x32], gives (lit "00~")] ++ es, hes⟩
  | backspace => exact ⟨[gives [127]], rfl⟩
  | deleteWord => exact ⟨[gives [23]], rfl⟩
  | deleteLine => exact ⟨[gives [21]], rfl⟩
  | tab => exact ⟨[.read ⟨[9], names, self⟩], rfl⟩

/-- A letter, and a paste that ends inside a character. -/
def cutPaste : List InsertEvent :=
  [gives [0x61], gives [0x1B], gives [0x5B], gives [0x32], gives [0x30], gives [0x30, 0x7E], gives [0x0A], gives [0xE4],
    gives [0xB8], gives []]

theorem insertMode_sound_paste :
    ∃ s, exec insertStep (.init false) cutPaste = some s ∧ s.editor.input.bytes = lit "a " ∧
      IsText s.editor.input.bytes :=
  ⟨_, rfl, by decide, (@insertMode_sound false cutPaste (by simp [cutPaste, gives, InsertEvent.NamesClean]) _ rfl).1.1⟩

end Tnt
