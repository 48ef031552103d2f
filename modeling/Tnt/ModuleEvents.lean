import Tnt.Publication
/-!
# The event that a message becomes (`module_runtime.c`)

`deliver_message_to_module` builds the line of an event in a buffer of
`TNT_MODULE_LINE_MAX` bytes and closes the module when that fails.
`moduleEvent_iff` says for which messages of users it does not.
-/
open BaseLib

namespace Tnt

def TNT_MODULE_LINE_MAX : Nat := 4096

/-- `"local-%llu"` -/
def messageId (eventId : UInt64) : Bytes := lit "local-" ++ decimal eventId.toNat

/-- The line that `deliver_message_to_module` writes, unless the builder fails. -/
def moduleEvent (eventId : UInt64) (msg : Message) : Option Bytes :=
  let (event, ok) := appendMessageCreated TNT_MODULE_LINE_MAX [] (messageId eventId) msg
  if ok then some event else none

/-- The number of bytes that a text has in JSON, without its quotes. -/
def escapedLength (text : Bytes) : Nat := (text.flatMap jsonEscape).length

/-! ## Escapes -/

theorem jsonEscape_self {c : UInt8} (h : 0x20 ≤ c) (hquote : c ≠ 0x22) (hslash : c ≠ 0x5C) : jsonEscape c = [c] := by
  have hge : ¬ c < 0x20 := UInt8.not_lt.2 h
  have hne (x : UInt8) (hx : x < 0x20) : c ≠ x := by
    rintro rfl
    exact hge hx
  simp only [jsonEscape, if_neg hslash, if_neg hquote, if_neg (hne 0x08 (by decide)), if_neg (hne 0x0C (by decide)),
    if_neg (hne 0x0A (by decide)), if_neg (hne 0x0D (by decide)), if_neg (hne 0x09 (by decide)), if_neg hge]

theorem flatMap_jsonEscape {s : Bytes} (h : ∀ c ∈ s, 0x20 ≤ c ∧ c ≠ 0x22 ∧ c ≠ 0x5C) : s.flatMap jsonEscape = s := by
  induction s with
  | nil => rfl
  | cons c s ih =>
    obtain ⟨⟨hge, hquote, hslash⟩, hs⟩ := List.forall_mem_cons.1 h
    rw [List.flatMap_cons, jsonEscape_self hge hquote hslash, ih hs, List.singleton_append]

theorem escapedLength_le {s : Bytes} (h : ∀ c ∈ s, 0x20 ≤ c ∨ c = 0x09) : escapedLength s ≤ 2 * s.length := by
  unfold escapedLength
  induction s with
  | nil => exact Nat.le_refl 0
  | cons c s ih =>
    obtain ⟨hc, hs⟩ := List.forall_mem_cons.1 h
    have := length_jsonEscape_text c hc
    have := ih hs
    rw [List.flatMap_cons, List.length_append, List.length_cons]
    omega

theorem length_jsonString (text : Bytes) : (jsonString text).length = escapedLength text + 2 := by
  simp only [jsonString, escapedLength, List.length_append, List.length_cons, List.length_nil]

/-! ## The line of an event -/

theorem isDigit_unescaped (c : UInt8) (h : isDigit c = true) : 0x20 ≤ c ∧ c ≠ 0x22 ∧ c ≠ 0x5C := by
  revert c
  exact forall_byte (by decide +kernel)

theorem escapedLength_messageId (eventId : UInt64) :
    escapedLength (messageId eventId) = 6 + (decimal eventId.toNat).length := by
  have hlit : ∀ c ∈ lit "local-", 0x20 ≤ c ∧ c ≠ 0x22 ∧ c ≠ 0x5C := by decide
  have hplain : ∀ c ∈ messageId eventId, 0x20 ≤ c ∧ c ≠ 0x22 ∧ c ≠ 0x5C :=
    List.forall_mem_append.2 ⟨hlit, fun c hc => isDigit_unescaped c (isDigit_of_mem_decimal hc)⟩
  rw [escapedLength, flatMap_jsonEscape hplain, messageId, List.length_append]
  rfl

theorem escapedLength_timestamp {ts : Int} (h : FourDigitYear ts) :
    escapedLength (messageLogFormatTimestampUtc ts) = 20 := by
  rw [escapedLength, flatMap_jsonEscape, length_timestamp h]
  intro c hc
  obtain ⟨hlo, hhi⟩ := mem_timestamp hc
  simp only [UInt8.le_iff_toNat_le, UInt8.reduceToNat, ne_eq, ← UInt8.toNat_inj] at hlo hhi ⊢
  omega

theorem length_messageCreatedLine (eventId : UInt64) {msg : Message} (h : FourDigitYear msg.timestamp) :
    (messageCreatedLine (messageId eventId) msg).length =
      144 + (decimal eventId.toNat).length + escapedLength msg.username.bytes + escapedLength msg.content.bytes := by
  have h1 : (lit "\x7b\"type\":\"message.created\",\"message\":\x7b\"id\":").length = 42 := by decide
  have h2 : (lit ",\"timestamp\":").length = 13 := by decide
  have h3 : (lit ",\"sender\":").length = 10 := by decide
  have h4 : (lit ",\"kind\":\"text\",\"plain_text\":").length = 28 := by decide
  have h5 : (lit ",\"metadata\":\x7b\x7d\x7d\x7d\n").length = 17 := by decide
  simp only [messageCreatedLine, List.length_append, length_jsonString, escapedLength_messageId,
    escapedLength_timestamp h, h1, h2, h3, h4, h5]
  omega

/-- A message of text becomes an event as long as its line leaves the buffer a byte short of full. -/
theorem moduleEvent_isSome {eventId : UInt64} {msg : Message} (h : FourDigitYear msg.timestamp) :
    (moduleEvent eventId msg).isSome = true ↔
      (utf8IsValidString msg.username.bytes = true ∧ utf8IsValidString msg.content.bytes = true) ∧
        escapedLength msg.username.bytes + escapedLength msg.content.bytes + (decimal eventId.toNat).length < 3951 := by
  have hok := @appendMessageCreated_ok TNT_MODULE_LINE_MAX (by decide) (messageId eventId)
    (List.append_ne_nil_of_left_ne_nil (by decide) _) msg
  rw [length_messageCreatedLine eventId h] at hok
  have hsome : (moduleEvent eventId msg).isSome =
      (appendMessageCreated TNT_MODULE_LINE_MAX [] (messageId eventId) msg).2 := by
    unfold moduleEvent
    cases hr : appendMessageCreated TNT_MODULE_LINE_MAX [] (messageId eventId) msg with
    | mk event ok => cases ok <;> rfl
  rw [hsome, hok, show TNT_MODULE_LINE_MAX - 1 = 4095 from rfl]
  exact and_congr_right fun _ => by omega

/-! ## Messages of users -/

/-- A user's message is made of the name and the text, spaces and a star. -/
theorem mem_composeUserMessage {now : Int} {username content : Bytes} {c : UInt8}
    (h : c ∈ (composeUserMessage now username content).username.bytes ∨
      c ∈ (composeUserMessage now username content).content.bytes) :
    c ∈ username ∨ c ∈ content ∨ c = 0x20 ∨ c = 0x2A := by
  cases haction : actionText content with
  | none =>
    simp only [composeUserMessage, haction] at h
    rcases h with h | h
    · exact .inl (CBuf.mem_of_mem_copy h)
    · exact .inr (.inl (CBuf.mem_of_mem_copy h))
  | some text =>
    simp only [composeUserMessage, haction] at h
    simp only [actionText, Option.ite_none_right_eq_some, Option.some.injEq] at haction
    rcases h with h | h
    · have hstar : c ∈ lit "*" := CBuf.mem_of_mem_copy h
      exact .inr (.inr (.inr (List.mem_singleton.1 hstar)))
    · rcases List.mem_append.1 (CBuf.mem_of_mem_copy h) with h | h
      · exact .inl h
      · rcases List.mem_cons.1 h with h | h
        · exact .inr (.inr (.inl h))
        · exact .inr (.inl (List.mem_of_mem_drop (haction.2 ▸ h)))

theorem composeUserMessage_ne_nil (now : Int) {username : CBuf MAX_USERNAME_LEN} (huser : username.bytes ≠ [])
    {content : Bytes} (hvalid : utf8IsValidString content = true) (hlen : content.length < MAX_MESSAGE_LEN)
    (hne : content ≠ []) :
    (composeUserMessage now username.bytes content).username.bytes ≠ [] ∧
      (composeUserMessage now username.bytes content).content.bytes ≠ [] := by
  cases haction : actionText content with
  | none =>
    obtain ⟨hu, hc⟩ := composeUserMessage_text now username haction (valid_zero_notMem hvalid) hlen
    rw [hu, hc]
    exact ⟨huser, hne⟩
  | some text =>
    obtain ⟨hu, hc⟩ := composeUserMessage_action now username haction (valid_zero_notMem hvalid)
    rw [hu, hc]
    exact ⟨by decide, by simp⟩

/-- What INSERT mode sends fits, whatever is typed. -/
theorem insert_fits {charSigned : Bool} {now : Int} {username : CBuf MAX_USERNAME_LEN} {input : CBuf MAX_MESSAGE_LEN}
    (hsrc : (Source.insert username input).Admissible charSigned) {m : Message}
    (hm : composeInsert now username input = some m) (eventId : UInt64) :
    escapedLength m.username.bytes + escapedLength m.content.bytes + (decimal eventId.toNat).length < 3951 := by
  have htext (c : UInt8) (hc : c ∈ m.username.bytes ∨ c ∈ m.content.bytes) : 0x20 ≤ c ∨ c = 0x09 := by
    rw [(composeInsert_some hm).2] at hc
    rcases mem_composeUserMessage hc with hc | hc | rfl | rfl
    · exact validUsername_ge hsrc.1 c hc
    · exact .inl (hsrc.2.2 c hc).1
    · exact .inl (by decide)
    · exact .inl (by decide)
  have hname := escapedLength_le fun c hc => htext c (.inl hc)
  have hcontent := escapedLength_le fun c hc => htext c (.inr hc)
  have hnameFits := m.username.fits
  have hcontentFits := m.content.fits
  have hdigits : (decimal eventId.toNat).length ≤ 20 :=
    length_decimal_le (k := 19) (lt_of_lt_of_le eventId.toNat_lt (by decide))
  simp only [MAX_USERNAME_LEN, MAX_MESSAGE_LEN] at hnameFits hcontentFits
  omega

/-- A user's message becomes an event, if and only if the author's name is text, it was not cut inside
a character and, where it is an `exec post`, its fields are not too long in JSON. -/
theorem moduleEvent_iff (charSigned : Bool) (now : Int) (eventId : UInt64) (src : Source) (m : Message)
    (hnow : ClockTime now) (hsrc : src.Admissible charSigned) (huser : ∀ name line, src ≠ .module name line)
    (hm : src.message charSigned now = some m) :
    (moduleEvent eventId m).isSome = true ↔
      (utf8IsValidString (src.author charSigned) = true ∧ ∀ text ∈ src.action,
        cutsCharacter MAX_MESSAGE_LEN (src.author charSigned ++ 0x20 :: text) = false) ∧
      ∀ sshLogin args, src = .post sshLogin args →
        escapedLength m.username.bytes + escapedLength m.content.bytes + (decimal eventId.toNat).length < 3951 := by
  obtain ⟨htime, hvalid⟩ := source_message_valid hsrc hm
  have hyear : FourDigitYear m.timestamp := htime ▸ hnow.fourDigitYear
  obtain ⟨hname, hcontent⟩ : m.username.bytes ≠ [] ∧ m.content.bytes ≠ [] := by
    cases src with
    | insert username input =>
      obtain ⟨hne, rfl⟩ := composeInsert_some hm
      exact composeUserMessage_ne_nil now (username_ne_nil hsrc.1) hsrc.2.1 input.fits hne
    | post sshLogin args =>
      obtain ⟨hne, htext, hlen, rfl⟩ := composePost_some hm
      exact composeUserMessage_ne_nil now (resolveExecUsername_ne_nil _ _) htext hlen hne
    | module name line => exact absurd rfl (huser name line)
  rw [moduleEvent_isSome hyear, ← hvalid]
  simp only [ne_eq, hname, hcontent, not_false_eq_true, true_and]
  apply and_congr_right
  intro _
  cases src with
  | insert username input => exact ⟨fun h _ _ _ => h, fun _ => insert_fits hsrc hm eventId⟩
  | post sshLogin args => simp
  | module name line => exact absurd rfl (huser name line)

/-- What `ann` types in INSERT mode. -/
theorem moduleEvent_iff_ann : (moduleEvent 1 ⟨1752500000, CBuf.copy MAX_USERNAME_LEN (lit "ann"),
    CBuf.copy MAX_MESSAGE_LEN (lit "say \"hi\"")⟩).isSome = true :=
  (moduleEvent_iff true 1752500000 1
    (.insert (CBuf.copy MAX_USERNAME_LEN (lit "ann")) (CBuf.copy MAX_MESSAGE_LEN (lit "say \"hi\"")))
    ⟨1752500000, CBuf.copy MAX_USERNAME_LEN (lit "ann"), CBuf.copy MAX_MESSAGE_LEN (lit "say \"hi\"")⟩
    (by decide) ⟨by decide, by decide, by decide⟩ (fun _ _ => by simp) (by decide)).2
    ⟨⟨by decide, by decide⟩, fun _ _ h => by simp at h⟩

/-- `exec post` of 700 bytes of the value 1 is accepted and saved, and in JSON it is too long. -/
theorem moduleEvent_tooLong :
    ∃ m, (Source.post (CBuf.copy MAX_USERNAME_LEN (lit "ann")) (List.replicate 700 0x01)).message true 1752500000 =
      some m ∧ (∀ dir, ∃ dir', messageSave m (.written true) dir = (0, dir')) ∧ moduleEvent 1 m = none := by
  refine ⟨⟨1752500000, CBuf.copy MAX_USERNAME_LEN (lit "ann"), CBuf.copy MAX_MESSAGE_LEN (List.replicate 700 0x01)⟩,
    by decide +kernel, fun dir => ⟨_, (messageSave_zero (by decide)).2 ⟨true, rfl, rfl⟩⟩, ?_⟩
  rw [← Option.not_isSome_iff_eq_none, moduleEvent_isSome (by decide)]
  have hlong : escapedLength (List.replicate 700 0x01) = 4200 := by decide +kernel
  rw [CBuf.copy_bytes (by decide) (by decide), CBuf.copy_bytes (by decide +kernel) (by decide +kernel), hlong]
  omega

end Tnt
