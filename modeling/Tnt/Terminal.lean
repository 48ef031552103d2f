import Tnt.SystemMessage
import Tnt.MessageLog
/-!
# What readers see of the room (`tui.c`, `exec.c`)

`tui_render_screen` draws each message as a line of text and of the server's own
styles, and `exec tail` prints each as a line of three fields. Where a message has
no control in it, neither have the lines, apart from the styles, the tabs and the
newlines that are the server's.
-/
open BaseLib

namespace Tnt

/-- A message of which no field has a control in it. -/
protected structure Message.Plain (m : Message) : Prop where
  username : Plain m.username.bytes
  content : Plain m.content.bytes

instance (m : Message) : Decidable m.Plain :=
  decidable_of_iff (Plain m.username.bytes ∧ Plain m.content.bytes) ⟨fun h => ⟨h.1, h.2⟩, fun h => ⟨h.1, h.2⟩⟩

/-! ## `exec tail` -/

/-- `strtol(s, &end, 10)`, with what `end` points at; `none` where there is no digit. -/
def strtol (s : Bytes) : Option (Int × Bytes) :=
  let s := s.dropWhile isSpace
  let (neg, s) := match s with
    | 0x2D :: s => (true, s)
    | 0x2B :: s => (false, s)
    | s => (false, s)
  let digits := s.takeWhile isDigit
  if digits = [] then none
  else some (if neg then -(digitsVal digits : Int) else digitsVal digits, s.drop digits.length)

/-- `parse_tail_count` -/
def parseTailCount (args : Bytes) : Option Nat :=
  if args = [] then some 20
  else
    let args := if (lit "-n").isPrefixOf args then (args.drop 2).dropWhile isSpace else args
    match strtol args with
    | none => none
    | some (value, rest) =>
      if !rest.all isSpace then none else if value < 1 ∨ value > MAX_MESSAGES then none else some value.toNat

/-- `"%s\t%s\t%s\n"` -/
def tailRow (m : Message) : Bytes :=
  messageLogFormatTimestampUtc m.timestamp ++ 0x09 :: m.username.bytes ++ 0x09 :: m.content.bytes ++ [newline]

/-- `exec_command_tail`, with `none` for `TNT_EXIT_USAGE`. -/
def execCommandTail (messages : List Message) (args : Bytes) : Option Bytes :=
  (parseTailCount args).map fun requested =>
    let snapshot := messages.drop (messages.length - requested)
    let outputSize := max snapshot.length 1 * (MAX_USERNAME_LEN + MAX_MESSAGE_LEN + 48)
    snapshot.foldl (fun output m => bufferAppend outputSize output (tailRow m)) []

/-- One line of three fields between tabs. -/
def ThreeFields (row : Bytes) : Prop :=
  ∃ a b c, row = a ++ 0x09 :: b ++ 0x09 :: c ++ [newline] ∧ Plain a ∧ Plain b ∧ Plain c

theorem plain_timestamp (ts : Int) : Plain (messageLogFormatTimestampUtc ts) := by
  intro b hb
  obtain ⟨hlo, hhi⟩ := mem_timestamp hb
  simp only [UInt8.le_iff_toNat_le, UInt8.reduceToNat, ne_eq, ← UInt8.toNat_inj] at hlo hhi ⊢
  omega

theorem tailRow_threeFields {m : Message} (h : m.Plain) : ThreeFields (tailRow m) :=
  ⟨_, _, _, rfl, plain_timestamp _, h.username, h.content⟩

theorem length_tailRow {m : Message} (h : FourDigitYear m.timestamp) :
    (tailRow m).length < MAX_USERNAME_LEN + MAX_MESSAGE_LEN + 48 := by
  have hu := m.username.fits
  have hc := m.content.fits
  simp only [tailRow, List.length_append, List.length_cons, List.length_nil, length_timestamp h, MAX_USERNAME_LEN,
    MAX_MESSAGE_LEN] at *
  omega

/-- A buffer with room for all of them takes the strings in full. -/
theorem foldl_bufferAppend {size n : Nat} {rows : List Bytes} (h : ∀ row ∈ rows, row.length < n) {buffer : Bytes}
    (hfits : buffer.length + rows.length * n ≤ size) :
    rows.foldl (bufferAppend size) buffer = buffer ++ rows.flatten := by
  induction rows generalizing buffer with
  | nil => simp
  | cons row rows ih =>
    have hrow := h row List.mem_cons_self
    rw [List.length_cons, Nat.add_mul, Nat.one_mul] at hfits
    have happend : bufferAppend size buffer row = buffer ++ row :=
      List.take_of_length_le (by rw [List.length_append]; omega)
    rw [List.foldl_cons, happend, ih (fun r hr => h r (List.mem_cons_of_mem _ hr)), List.flatten_cons,
      List.append_assoc]
    rw [List.length_append]
    omega

/-- `exec tail` prints a row for each of the newest messages. -/
theorem execCommandTail_eq {messages : List Message} (h : ∀ m ∈ messages, FourDigitYear m.timestamp) {args out : Bytes}
    (hout : execCommandTail messages args = some out) :
    ∃ snapshot, snapshot <:+ messages ∧ out = (snapshot.map tailRow).flatten := by
  obtain ⟨requested, -, rfl⟩ := Option.map_eq_some_iff.1 hout
  generalize hs : messages.drop (messages.length - requested) = snapshot
  have hmem : ∀ m ∈ snapshot, FourDigitYear m.timestamp := fun m hm => h m (List.mem_of_mem_drop (hs ▸ hm))
  have hrows : ∀ row ∈ snapshot.map tailRow, row.length < MAX_USERNAME_LEN + MAX_MESSAGE_LEN + 48 := by
    intro row hrow
    obtain ⟨m, hm, rfl⟩ := List.mem_map.1 hrow
    exact length_tailRow (hmem m hm)
  refine ⟨snapshot, hs ▸ List.drop_suffix _ _, ?_⟩
  have hfold := @foldl_bufferAppend (max snapshot.length 1 * (MAX_USERNAME_LEN + MAX_MESSAGE_LEN + 48)) _ _ hrows []
    (by rw [List.length_nil, Nat.zero_add, List.length_map]; exact Nat.mul_le_mul_right _ (Nat.le_max_left _ _))
  rwa [List.foldl_map] at hfold

/-! ## A line of the screen -/

/-- The escape sequences that a line of the screen uses. -/
inductive Style
  | accent | accentItalic | dim | reset | highlight
  /-- Of `username_color`. -/
  | color (i : Fin 6)
  deriving DecidableEq

/-- The bytes of a style, in a theme of the given foreground colour code. -/
def Style.bytes (code : Bytes) : Style → Bytes
  | accent => esc :: lit "[" ++ code ++ lit "m"
  | accentItalic => esc :: lit "[3;" ++ code ++ lit "m"
  | dim => esc :: lit "[90m"
  | reset => esc :: lit "[0m"
  | highlight => esc :: lit "[1;33m"
  | color i => esc :: lit "[3" ++ decimal (i + 1) ++ lit "m"

/-- A part of a line: a style, or text. -/
inductive Piece
  | style (s : Style)
  | text (t : Bytes)
  deriving DecidableEq

/-- The colour codes of the themes. -/
def themeCodes : List Bytes := [lit "36", lit "32", lit "35", lit "34", lit "33", lit "31", lit "37"]

def Piece.bytes (code : Bytes) : Piece → Bytes
  | style s => s.bytes code
  | text t => t

/-- `username_color` -/
def usernameColor (name : Bytes) : Style :=
  let h : UInt32 := name.foldl (fun h p => h * 33 + p.toUInt32) 5381
  .color ⟨h.toNat % 6, Nat.mod_lt _ (by decide)⟩

/-- The message is by the viewer. -/
def isSelf (msg : Message) (myUsername : Bytes) : Bool :=
  if myUsername ≠ [] ∧ systemMessageIsSystem msg = false then
    if msg.username.bytes = lit "*" then
      myUsername.isPrefixOf msg.content.bytes &&
        (byteAt msg.content.bytes myUsername.length == 0x20 || byteAt msg.content.bytes myUsername.length == 0)
    else msg.username.bytes == myUsername
  else false

/-- `format_message_colored`, for a message of the local time `hour:minute`. -/
def formatMessageColored (msg : Message) (hour minute width : Nat) (myUsername : Bytes) : List Piece :=
  let timeStr : Bytes := twoDigits hour ++ 0x3A :: twoDigits minute
  let gutter : List Piece :=
    if isSelf msg myUsername then [.style .accent, .text (lit "▎"), .style .reset] else [.text (lit " ")]
  let mentioned : Prop := myUsername ≠ [] ∧ systemMessageIsSystem msg = false ∧
    strstr msg.content.bytes (0x40 :: myUsername) = true
  let isSystem : Bool := systemMessageIsSystem msg
  let isAction : Bool := !isSystem && msg.username.bytes == lit "*"
  -- What stands in front of the content, without styles.
  let start : Bytes :=
    if isSystem then lit " --> "
    else if isAction then 0x20 :: timeStr ++ lit " * "
    else 0x20 :: timeStr ++ 0x20 :: msg.username.bytes ++ lit ": "
  let contentWidth : Nat := max 4 (width - utf8StringWidth start)
  -- The star of an action is cut with the content.
  let starred : Bytes := if isAction then lit "* " ++ msg.content.bytes else msg.content.bytes
  let content : Bytes :=
    if utf8StringWidth (start ++ msg.content.bytes) > width then
      utf8Truncate (CBuf.copy MAX_MESSAGE_LEN starred).bytes contentWidth
    else starred
  let name : List Piece :=
    [.style .dim, .text timeStr, .style .reset, .text (lit " "), .style (usernameColor msg.username.bytes),
      .text msg.username.bytes, .style .reset, .text (lit ": ")]
  let line : List Piece :=
    if isSystem then [.style .dim, .text (lit "--> "), .text content, .style .reset]
    else if isAction then
      [.style .dim, .text timeStr, .style .reset, .text (lit " "), .style .accentItalic, .text content, .style .reset]
    else if mentioned then name ++ [.style .highlight, .text content, .style .reset]
    else name ++ [.text content]
  gutter ++ line

theorem digit_plain (n : Nat) : 0x20 ≤ digit n ∧ digit n ≠ 0x7F := by
  have h := toNat_digit n
  have := Nat.mod_lt n (show 0 < 10 by omega)
  simp only [UInt8.le_iff_toNat_le, ne_eq, ← UInt8.toNat_inj, UInt8.reduceToNat, h]
  omega

theorem decimal_plain (n : Nat) : Plain (decimal n) := by
  have haux (k n : Nat) : Plain (decimalAux k n) := by
    induction k generalizing n with
    | zero => exact plain_nil
    | succ k ih =>
      rw [decimalAux]
      split
      · exact plain_cons.2 ⟨digit_plain n, plain_nil⟩
      · exact plain_append.2 ⟨ih _, plain_cons.2 ⟨digit_plain n, plain_nil⟩⟩
  exact haux _ n

theorem twoDigits_plain (n : Nat) : Plain (twoDigits n) := by
  unfold twoDigits
  split
  · exact plain_cons.2 ⟨by decide, plain_cons.2 ⟨digit_plain n, plain_nil⟩⟩
  · exact decimal_plain n

theorem utf8Truncate_plain {s : Bytes} (h : Plain s) (maxWidth : Nat) : Plain (utf8Truncate s maxWidth) :=
  h.subset (isPrefix_utf8Truncate s maxWidth).subset

/-- What is drawn of a message without controls has none that is not of a style of the server. -/
theorem formatMessageColored_plain {msg : Message} (h : msg.Plain) (hour minute width : Nat) (myUsername : Bytes) :
    ∀ t, .text t ∈ formatMessageColored msg hour minute width myUsername → Plain t := by
  intro t ht
  unfold formatMessageColored at ht
  extract_lets timeStr gutter mentioned isSystem isAction start contentWidth starred content name line at ht
  have htime : Plain timeStr := plain_append.2 ⟨twoDigits_plain hour, plain_cons.2 ⟨by decide, twoDigits_plain minute⟩⟩
  have hstarred : Plain starred := by
    unfold starred
    split
    · exact plain_append.2 ⟨by decide +kernel, h.content⟩
    · exact h.content
  have hcontent : Plain content := by
    unfold content
    split
    · exact utf8Truncate_plain (hstarred.copy _) _
    · exact hstarred
  have hlit : Plain (lit "▎") ∧ Plain (lit " ") ∧ Plain (lit "--> ") ∧ Plain (lit ": ") := by decide +kernel
  have hname : .text t ∈ name → Plain t := by
    intro ht
    simp only [name, List.mem_cons, reduceCtorEq, Piece.text.injEq, List.not_mem_nil, false_or, or_false] at ht
    rcases ht with rfl | rfl | rfl | rfl
    exacts [htime, hlit.2.1, h.username, hlit.2.2.2]
  rcases List.mem_append.1 ht with ht | ht
  · unfold gutter at ht
    split at ht <;> simp only [List.mem_cons, reduceCtorEq, Piece.text.injEq, List.not_mem_nil, false_or,
      or_false] at ht
    · exact ht ▸ hlit.1
    · exact ht ▸ hlit.2.1
  · unfold line at ht
    split_ifs at ht
    all_goals simp only [List.mem_append, List.mem_cons, reduceCtorEq, Piece.text.injEq, List.not_mem_nil, false_or,
      or_false] at ht
    · rcases ht with rfl | rfl
      exacts [hlit.2.2.1, hcontent]
    · rcases ht with rfl | rfl | rfl
      exacts [htime, hlit.2.1, hcontent]
    · exact ht.elim hname (· ▸ hcontent)
    · exact ht.elim hname (· ▸ hcontent)

theorem Plain.oneLine {s : Bytes} (h : Plain s) : ∀ b ∈ s, b ≠ newline ∧ b ≠ 0x0D := by
  intro b hb
  have hge := (h b hb).1
  constructor <;> rintro rfl <;> exact absurd hge (by decide)

/-- A style moves the cursor nowhere. -/
theorem Style.oneLine {code : Bytes} (h : code ∈ themeCodes) (s : Style) :
    ∀ b ∈ s.bytes code, b ≠ newline ∧ b ≠ 0x0D := by
  revert code
  cases s with
  | color i => revert i; decide +kernel
  | _ => decide +kernel

/-- A message is drawn on one line. -/
theorem formatMessageColored_oneLine {msg : Message} (h : msg.Plain) (hour minute width : Nat) (myUsername : Bytes)
    {code : Bytes} (hcode : code ∈ themeCodes) :
    ∀ b ∈ (formatMessageColored msg hour minute width myUsername).flatMap (Piece.bytes code),
      b ≠ newline ∧ b ≠ 0x0D := by
  intro b hb
  obtain ⟨piece, hpiece, hb⟩ := List.mem_flatMap.1 hb
  cases piece with
  | style s => exact s.oneLine hcode b hb
  | text t => exact (formatMessageColored_plain h hour minute width myUsername t hpiece).oneLine b hb

end Tnt
