import Tnt.Common
import Tnt.JsonText
import Tnt.MessageLog
/-!
# What a module is told and what it may send (`module_protocol.c`, `module_runtime.c`)
-/
open BaseLib

namespace Tnt

/-- Room for `"module:"` and the NUL in a username. -/
def TNT_MODULE_NAME_MAX : Nat := MAX_USERNAME_LEN - 8

def TNT_MODULE_PROTOCOL_VERSION : Bytes := lit "tnt.module.v1"

/-- `is_valid_module_name` -/
def isValidModuleName (name : Bytes) : Bool :=
  let len := name.length
  if name = [] then false
  else if len > TNT_MODULE_NAME_MAX ∨ len ≥ 64 ∨ byteAt name 0 = 0x2D ∨ byteAt name (len - 1) = 0x2D then false
  else name.all fun p => (0x61 ≤ p && p ≤ 0x7A) || (0x30 ≤ p && p ≤ 0x39) || p == 0x2D

/-! ## Events -/

/-- What the builders of lines return: the buffer, and whether the result is 0. It is not where
the buffer became full. -/
def appended (bufSize : Nat) (before after : Bytes) : Bytes × Bool :=
  (after, !decide (after.length ≥ bufSize - 1 ∧ after.length = bufSize - 1 ∧ before.length ≠ after.length))

/-- `tnt_module_append_message_created` -/
def appendMessageCreated (bufSize : Nat) (buffer messageId : Bytes) (msg : Message) : Bytes × Bool :=
  if bufSize = 0 ∨ messageId = [] ∨ utf8IsValidString msg.username.bytes = false ∨
      utf8IsValidString msg.content.bytes = false then (buffer, false)
  else
    let out := bufferAppend bufSize buffer (lit "\x7b\"type\":\"message.created\",\"message\":\x7b\"id\":")
    let out := jsonAppendString bufSize out messageId
    let out := bufferAppend bufSize out (lit ",\"timestamp\":")
    let out := jsonAppendString bufSize out (messageLogFormatTimestampUtc msg.timestamp)
    let out := bufferAppend bufSize out (lit ",\"sender\":")
    let out := jsonAppendString bufSize out msg.username.bytes
    let out := bufferAppend bufSize out (lit ",\"kind\":\"text\",\"plain_text\":")
    let out := jsonAppendString bufSize out msg.content.bytes
    let out := bufferAppend bufSize out (lit ",\"metadata\":\x7b\x7d\x7d\x7d\n")
    appended bufSize buffer out

/-- The line of an event, of whatever length. -/
def messageCreatedLine (messageId : Bytes) (msg : Message) : Bytes :=
  lit "\x7b\"type\":\"message.created\",\"message\":\x7b\"id\":" ++ jsonString messageId ++
    lit ",\"timestamp\":" ++ jsonString (messageLogFormatTimestampUtc msg.timestamp) ++
    lit ",\"sender\":" ++ jsonString msg.username.bytes ++
    lit ",\"kind\":\"text\",\"plain_text\":" ++ jsonString msg.content.bytes ++
    lit ",\"metadata\":\x7b\x7d\x7d\x7d\n"

/-- The builder appends the line as far as it fits. -/
theorem appendMessageCreated_take {bufSize : Nat} (hsize : bufSize ≠ 0) {messageId : Bytes} (hid : messageId ≠ [])
    {msg : Message} (hname : utf8IsValidString msg.username.bytes = true)
    (hcontent : utf8IsValidString msg.content.bytes = true) (buffer : Bytes) :
    appendMessageCreated bufSize (buffer.take (bufSize - 1)) messageId msg =
      appended bufSize (buffer.take (bufSize - 1))
        ((buffer ++ messageCreatedLine messageId msg).take (bufSize - 1)) := by
  unfold appendMessageCreated
  rw [if_neg (by simp [hsize, hid, hname, hcontent])]
  simp only [bufferAppend_take, jsonAppendString_take, messageCreatedLine, List.append_assoc]

/-- From an empty buffer, a message of text is refused where the line leaves no byte of the buffer free. -/
theorem appendMessageCreated_ok {bufSize : Nat} (hsize : 1 < bufSize) {messageId : Bytes} (hid : messageId ≠ [])
    {msg : Message} :
    (appendMessageCreated bufSize [] messageId msg).2 = true ↔
      (utf8IsValidString msg.username.bytes = true ∧ utf8IsValidString msg.content.bytes = true) ∧
        (messageCreatedLine messageId msg).length < bufSize - 1 := by
  by_cases hvalid : utf8IsValidString msg.username.bytes = true ∧ utf8IsValidString msg.content.bytes = true
  · have hline := appendMessageCreated_take (Nat.ne_of_gt (Nat.zero_lt_of_lt hsize)) hid hvalid.1 hvalid.2 []
    rw [List.take_nil, List.nil_append] at hline
    simp only [hline, appended, hvalid, true_and, List.length_take, List.length_nil, Bool.not_eq_true',
      decide_eq_false_iff_not]
    omega
  · have hrefused : appendMessageCreated bufSize [] messageId msg = ([], false) := by
      unfold appendMessageCreated
      rw [if_pos]
      rw [not_and_or, Bool.not_eq_true, Bool.not_eq_true] at hvalid
      exact .inr (.inr hvalid)
    rw [hrefused]
    simp [hvalid]

/-! ## Responses -/

/-- `has_plain_text_controls` -/
def hasPlainTextControls (text : Bytes) : Bool := text.any fun p => p < 32 || p == 127

/-- `tnt_module_parse_message_create` -/
def parseMessageCreate (line : Bytes) : Option (CBuf MAX_MESSAGE_LEN) :=
  match jsonGetStringField line (lit "type") 64 with
  | none => none
  | some type =>
    if type ≠ lit "message.create" then none
    else
      match jsonGetStringField line (lit "plain_text") MAX_MESSAGE_LEN with
      | none => none
      | some plainText =>
        if plainText = [] ∨ plainText.length ≥ MAX_MESSAGE_LEN ∨ utf8IsValidString plainText = false ∨
            hasPlainTextControls plainText = true then none
        else some (CBuf.copy MAX_MESSAGE_LEN plainText)

/-- `handshake_ok` -/
def handshakeOk (line : Bytes) : Bool :=
  match jsonGetStringField line (lit "type") 64 with
  | none => false
  | some type =>
    if type ≠ lit "handshake.ok" then false
    else
      match jsonGetStringField line (lit "protocol") 64 with
      | none => false
      | some protocol => protocol = TNT_MODULE_PROTOCOL_VERSION

/-- What `tnt_module_parse_message_create` accepts is text without controls. -/
theorem parseMessageCreate_spec {line : Bytes} {text : CBuf MAX_MESSAGE_LEN} (h : parseMessageCreate line = some text) :
    text.bytes ≠ [] ∧ utf8IsValidString text.bytes = true ∧ ∀ b ∈ text.bytes, 0x20 ≤ b ∧ b ≠ 0x7F := by
  unfold parseMessageCreate at h
  split at h
  · exact absurd h (by simp)
  · split_ifs at h
    split at h
    · exact absurd h (by simp)
    · split_ifs at h with hbad
      push Not at hbad
      obtain ⟨hne, hlen, hvalid, hcontrols⟩ := hbad
      replace hvalid := Bool.not_eq_false _ |>.mp hvalid
      replace hcontrols := Bool.not_eq_true _ |>.mp hcontrols
      obtain rfl := Option.some.inj h
      rw [CBuf.copy_bytes (valid_zero_notMem hvalid) hlen]
      refine ⟨hne, hvalid, fun b hb => ?_⟩
      have := List.any_eq_false.1 hcontrols b hb
      simpa only [Bool.or_eq_true, decide_eq_true_eq, beq_iff_eq, not_or, UInt8.not_lt] using this

theorem isValidModuleName_spec {name : Bytes} (h : isValidModuleName name = true) :
    name.length ≤ TNT_MODULE_NAME_MAX ∧ ∀ b ∈ name, 0x2D ≤ b ∧ b ≤ 0x7A := by
  simp only [isValidModuleName] at h
  split_ifs at h with h1 h2
  push Not at h2
  refine ⟨h2.1, fun b hb => ?_⟩
  have hchar := List.all_eq_true.1 h b hb
  simp only [Bool.or_eq_true, Bool.and_eq_true, decide_eq_true_eq, beq_iff_eq, UInt8.le_iff_toNat_le,
    UInt8.reduceToNat, ← UInt8.toNat_inj] at hchar ⊢
  omega

end Tnt
