import Tnt.Builders
import Tnt.Manifest
/-!
# The lines for a module, in memory (`module_protocol.c`)

Whether a line was cut is read off the position behind it. A line that just fits
looks like one that was cut, and a buffer that was full before like one where all
is well; `protocolLines_iff` says that there is nothing else.
-/
open BaseLib

namespace Tnt

def TNT_VERSION : Bytes := lit "1.2.0"

/-- `append_was_truncated` -/
def appendWasTruncated (pos bufSize : Nat) : Bool := bufSize == 0 || decide (pos ≥ bufSize - 1)

/-- What a builder of lines returns for the position before and after. -/
def lineStatus (bufSize before pos : Nat) : Int :=
  if appendWasTruncated pos bufSize && pos == bufSize - 1 && before != pos then -1 else 0

/-- `tnt_module_append_handshake` -/
def tntModuleAppendHandshake (bufSize : Nat) (buffer : OutBuffer) (serverVersion : Option Bytes) : OutBuffer × Int :=
  let version := serverVersion.getD TNT_VERSION
  if bufSize = 0 then (buffer, -1)
  else
    let before := buffer.pos
    let b := bufferAppendf bufSize buffer (lit "\x7b\"type\":\"handshake\",\"protocol\":")
    let b := tntJsonAppendString bufSize b TNT_MODULE_PROTOCOL_VERSION
    let b := bufferAppendf bufSize b (lit ",\"server\":\x7b\"name\":\"tnt\",\"version\":")
    let b := tntJsonAppendString bufSize b version
    let b := bufferAppendf bufSize b (lit "\x7d\x7d\n")
    (b, lineStatus bufSize before b.pos)

/-- `tnt_module_append_message_created` -/
def tntModuleAppendMessageCreated (bufSize : Nat) (buffer : OutBuffer) (messageId : Bytes) (msg : Message) :
    OutBuffer × Int :=
  if bufSize = 0 ∨ byteAt messageId 0 = 0 ∨ utf8IsValidString msg.username.bytes = false ∨
      utf8IsValidString msg.content.bytes = false then (buffer, -1)
  else
    let before := buffer.pos
    let timestamp := messageLogFormatTimestampUtc msg.timestamp
    let b := bufferAppendf bufSize buffer
      (lit "\x7b\"type\":\"" ++ TNT_MODULE_EVENT_MESSAGE_CREATED ++ lit "\",\"message\":\x7b\"id\":")
    let b := tntJsonAppendString bufSize b messageId
    let b := bufferAppendf bufSize b (lit ",\"timestamp\":")
    let b := tntJsonAppendString bufSize b timestamp
    let b := bufferAppendf bufSize b (lit ",\"sender\":")
    let b := tntJsonAppendString bufSize b msg.username.bytes
    let b := bufferAppendf bufSize b (lit ",\"kind\":\"text\",\"plain_text\":")
    let b := tntJsonAppendString bufSize b msg.content.bytes
    let b := bufferAppendf bufSize b (lit ",\"metadata\":\x7b\x7d\x7d\x7d\n")
    (b, lineStatus bufSize before b.pos)

/-- The line of the handshake, of whatever length. -/
def handshakeLine (serverVersion : Option Bytes) : Bytes :=
  lit "\x7b\"type\":\"handshake\",\"protocol\":" ++ jsonString TNT_MODULE_PROTOCOL_VERSION ++
    lit ",\"server\":\x7b\"name\":\"tnt\",\"version\":" ++ jsonString (cstr (serverVersion.getD TNT_VERSION)) ++
    lit "\x7d\x7d\n"

/-- The status is 0 just where the whole line was appended. With another one, the buffer still ends with a NUL, or it
is as it was. -/
structure ReportsTruncation (bufSize : Nat) (b : OutBuffer) (line : Bytes) (result : OutBuffer × Int) : Prop where
  reported : result.2 = 0 ↔ result.1.text = b.text ++ line ∧ result.1.Terminated
  bounded : result.2 ≠ 0 → result.1.pos ≤ bufSize - 1 ∧ (result.1 = b ∨ result.1.Terminated)

/-! ## A line -/

section Line
variable {bufSize : Nat} {b b' : OutBuffer} {line : Bytes}

/-- Where the position cannot tell: the line leaves no byte free, or none was. -/
theorem reportsTruncation_iff (hb : b.Fits bufSize) (hline : line ≠ [])
    (h : b.Wrote bufSize b' ((b.text ++ line).take (bufSize - 1))) :
    ReportsTruncation bufSize b line (b', lineStatus bufSize b.pos b'.pos) ↔
      b.pos ≠ bufSize - 1 ∧ b.pos + line.length ≠ bufSize - 1 := by
  have hlen := hb.length_text
  have hlt := hb.pos_lt
  have hpos : b'.pos = min (bufSize - 1) (b.pos + line.length) := by
    rw [← h.fits.length_text, h.text_eq, List.length_take, List.length_append, hlen]
  have hline := List.length_pos_iff.2 hline
  have hstatus : lineStatus bufSize b.pos b'.pos = 0 ↔ b'.pos ≠ bufSize - 1 ∨ b.pos = b'.pos := by
    have : bufSize ≠ 0 := by omega
    by_cases hfull : b'.pos = bufSize - 1 <;> by_cases hsame : b.pos = b'.pos <;>
      simp [lineStatus, appendWasTruncated, hfull, hsame, this]
  have hwhole : b'.text = b.text ++ line ↔ b.pos + line.length ≤ bufSize - 1 := by
    rw [h.text_eq, List.take_eq_self_iff, List.length_append, hlen]
  have hended : b.pos ≠ b'.pos → b'.Terminated := fun hne =>
    h.ended.resolve_left fun heq => hne (congrArg OutBuffer.pos heq.symm)
  constructor
  · rintro ⟨hreported, -⟩
    rw [hstatus, hwhole] at hreported
    constructor
    · intro hfull
      have := (hreported.1 (.inr (by omega))).1
      omega
    · intro hexact
      have hmoved : b.pos ≠ b'.pos := by omega
      have := hreported.2 ⟨by omega, hended hmoved⟩
      omega
  · rintro ⟨hfull, hexact⟩
    have hmoved : b.pos ≠ b'.pos := by omega
    have hle : b'.pos ≤ bufSize - 1 := by omega
    refine ⟨?_, fun _ => ⟨hle, h.ended⟩⟩
    rw [hstatus, hwhole]
    constructor
    · intro hzero
      exact ⟨by omega, hended hmoved⟩
    · intro hwhole
      omega

/-- A builder that refuses leaves the buffer alone, and says so. -/
theorem reportsTruncation_refused (hb : b.Fits bufSize) (hline : line ≠ []) :
    ReportsTruncation bufSize b line (b, -1) := by
  refine ⟨⟨fun h => absurd h (show ¬ (-1 : Int) = 0 by decide), fun h => absurd h.1 fun htext => hline ?_⟩,
    fun _ => ⟨Nat.le_sub_one_of_lt hb.pos_lt, .inl rfl⟩⟩
  exact List.self_eq_append_right.1 htext

end Line

section Lines
variable {bufSize : Nat} {b : OutBuffer}

theorem zero_notMem_timestamp (ts : Int) : 0 ∉ messageLogFormatTimestampUtc ts :=
  fun h => absurd (mem_timestamp h).1 (by decide)

/-- The calls of `tnt_module_append_handshake`. -/
def handshakeCalls (serverVersion : Option Bytes) : List BuilderCall :=
  [.format (lit "\x7b\"type\":\"handshake\",\"protocol\":") (by decide), .json TNT_MODULE_PROTOCOL_VERSION,
    .format (lit ",\"server\":\x7b\"name\":\"tnt\",\"version\":") (by decide),
    .json (serverVersion.getD TNT_VERSION), .format (lit "\x7d\x7d\n") (by decide)]

theorem tntModuleAppendHandshake_wrote (hb : b.Fits bufSize) (serverVersion : Option Bytes) :
    ∃ b', tntModuleAppendHandshake bufSize b serverVersion = (b', lineStatus bufSize b.pos b'.pos) ∧
      b.Wrote bufSize b' ((b.text ++ handshakeLine serverVersion).take (bufSize - 1)) := by
  have hfull : b.text = b.text.take (bufSize - 1) :=
    (List.take_of_length_le (by rw [hb.length_text]; exact Nat.le_sub_one_of_lt hb.pos_lt)).symm
  have hwrote := BuilderCall.runs_wrote hb hfull (handshakeCalls serverVersion)
  have houtput : (handshakeCalls serverVersion).flatMap BuilderCall.output = handshakeLine serverVersion := by
    have hprotocol : cstr TNT_MODULE_PROTOCOL_VERSION = TNT_MODULE_PROTOCOL_VERSION := by decide
    simp only [handshakeCalls, List.flatMap_cons, List.flatMap_nil, List.append_nil, BuilderCall.output, hprotocol,
      handshakeLine, List.append_assoc]
  rw [houtput] at hwrote
  refine ⟨_, ?_, hwrote⟩
  rw [tntModuleAppendHandshake, if_neg (Nat.ne_of_gt (Nat.zero_lt_of_lt hb.pos_lt))]
  rfl

theorem cstr_eq_nil_iff {s : Bytes} : cstr s = [] ↔ byteAt s 0 = 0 := by
  cases s with
  | nil => simp [cstr, byteAt]
  | cons c s => by_cases hc : c = 0 <;> simp [cstr, byteAt, hc]

/-- The calls of `tnt_module_append_message_created`. -/
def messageCreatedCalls (messageId : Bytes) (msg : Message) : List BuilderCall :=
  [.format (lit "\x7b\"type\":\"" ++ TNT_MODULE_EVENT_MESSAGE_CREATED ++ lit "\",\"message\":\x7b\"id\":") (by decide),
    .json messageId, .format (lit ",\"timestamp\":") (by decide), .json (messageLogFormatTimestampUtc msg.timestamp),
    .format (lit ",\"sender\":") (by decide), .json msg.username.bytes,
    .format (lit ",\"kind\":\"text\",\"plain_text\":") (by decide), .json msg.content.bytes,
    .format (lit ",\"metadata\":\x7b\x7d\x7d\x7d\n") (by decide)]

theorem tntModuleAppendMessageCreated_wrote (hb : b.Fits bufSize) {messageId : Bytes} (hid : cstr messageId ≠ [])
    {msg : Message} (hname : utf8IsValidString msg.username.bytes = true)
    (hcontent : utf8IsValidString msg.content.bytes = true) :
    ∃ b', tntModuleAppendMessageCreated bufSize b messageId msg = (b', lineStatus bufSize b.pos b'.pos) ∧
      b.Wrote bufSize b' ((b.text ++ messageCreatedLine (cstr messageId) msg).take (bufSize - 1)) := by
  have hfull : b.text = b.text.take (bufSize - 1) :=
    (List.take_of_length_le (by rw [hb.length_text]; exact Nat.le_sub_one_of_lt hb.pos_lt)).symm
  have hwrote := BuilderCall.runs_wrote hb hfull (messageCreatedCalls messageId msg)
  have houtput : (messageCreatedCalls messageId msg).flatMap BuilderCall.output =
      messageCreatedLine (cstr messageId) msg := by
    have hfront : lit "\x7b\"type\":\"" ++ TNT_MODULE_EVENT_MESSAGE_CREATED ++ lit "\",\"message\":\x7b\"id\":" =
        lit "\x7b\"type\":\"message.created\",\"message\":\x7b\"id\":" := by decide
    simp only [messageCreatedCalls, List.flatMap_cons, List.flatMap_nil, List.append_nil, BuilderCall.output, hfront,
      cstr_of_notMem (zero_notMem_timestamp _), cstr_of_notMem msg.username.nul_free,
      cstr_of_notMem msg.content.nul_free, messageCreatedLine, List.append_assoc]
  have hfirst : byteAt messageId 0 ≠ 0 := fun h => hid (cstr_eq_nil_iff.2 h)
  rw [houtput] at hwrote
  refine ⟨_, ?_, hwrote⟩
  have hsize := Nat.ne_of_gt (Nat.zero_lt_of_lt hb.pos_lt)
  rw [tntModuleAppendMessageCreated, if_neg (by simp [hfirst, hname, hcontent, hsize])]
  rfl

end Lines

/-- The status is right unless the line would leave no byte of the buffer free, or none was free before. -/
theorem protocolLines_iff (bufSize : Nat) (b : OutBuffer) (hsize : b.mem.length = bufSize) (hpos : b.pos < bufSize) :
    (∀ serverVersion : Option Bytes,
      ReportsTruncation bufSize b (handshakeLine serverVersion) (tntModuleAppendHandshake bufSize b serverVersion) ↔
        b.pos ≠ bufSize - 1 ∧ b.pos + (handshakeLine serverVersion).length ≠ bufSize - 1) ∧
    ∀ (messageId : Bytes) (msg : Message), utf8IsValidString msg.username.bytes = true →
      utf8IsValidString msg.content.bytes = true →
      (ReportsTruncation bufSize b (messageCreatedLine (cstr messageId) msg)
          (tntModuleAppendMessageCreated bufSize b messageId msg) ↔
        cstr messageId = [] ∨
          b.pos ≠ bufSize - 1 ∧ b.pos + (messageCreatedLine (cstr messageId) msg).length ≠ bufSize - 1) := by
  have hb : b.Fits bufSize := ⟨hsize, hpos⟩
  constructor
  · intro serverVersion
    obtain ⟨b', hresult, hwrote⟩ := tntModuleAppendHandshake_wrote hb serverVersion
    rw [hresult]
    exact reportsTruncation_iff hb (by simp [handshakeLine, lit]) hwrote
  · intro messageId msg hname hcontent
    have hline : messageCreatedLine (cstr messageId) msg ≠ [] := by simp [messageCreatedLine, lit]
    by_cases hid : cstr messageId = []
    · have hrefused : tntModuleAppendMessageCreated bufSize b messageId msg = (b, -1) := by
        rw [tntModuleAppendMessageCreated, if_pos (.inr (.inl (cstr_eq_nil_iff.1 hid)))]
      rw [hrefused]
      exact iff_of_true (reportsTruncation_refused hb hline) (.inl hid)
    · obtain ⟨b', hresult, hwrote⟩ := tntModuleAppendMessageCreated_wrote hb hid hname hcontent
      rw [hresult, reportsTruncation_iff hb hline hwrote]
      exact (or_iff_right hid).symm

theorem protocolLines_iff_roomy :
    ReportsTruncation 512 ⟨List.replicate 512 0, 0⟩ (handshakeLine none)
      (tntModuleAppendHandshake 512 ⟨List.replicate 512 0, 0⟩ none) :=
  ((protocolLines_iff 512 ⟨List.replicate 512 0, 0⟩ List.length_replicate (by decide)).1 none).2 (by decide +kernel)

/-- A handshake of 90 bytes, with room for them and a NUL, is reported as cut. -/
theorem handshake_exact_fit : ¬ ReportsTruncation 91 ⟨List.replicate 91 0, 0⟩ (handshakeLine none)
    (tntModuleAppendHandshake 91 ⟨List.replicate 91 0, 0⟩ none) := by
  intro h
  have hzero := h.reported.2 (by decide +kernel)
  revert hzero
  decide +kernel

end Tnt
