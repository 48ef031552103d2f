import Tnt.Message
import Tnt.ModuleProtocol
/-!
# Composing public messages (`input.c`, `exec.c`, `module_runtime.c`)

A message is composed in three places: on Enter in INSERT mode, by `exec post`
and for a module's response. `compose_replayable` says which of the composed
messages the log can give back.
-/
open BaseLib

namespace Tnt

/-- What follows `"/me "` in an action. -/
def actionText (content : Bytes) : Option Bytes :=
  if (lit "/me ").isPrefixOf content = true ∧ byteAt content 4 ≠ 0 then some (content.drop 4) else none

/-- The message that a user's text becomes. An action is told by `*`, with the author's name in
front of the text and the end of it cut off where it does not fit. -/
def composeUserMessage (now : Int) (username content : Bytes) : Message :=
  match actionText content with
  | some text => ⟨now, CBuf.copy MAX_USERNAME_LEN (lit "*"), CBuf.copy MAX_MESSAGE_LEN (username ++ 0x20 :: text)⟩
  | none => ⟨now, CBuf.copy MAX_USERNAME_LEN username, CBuf.copy MAX_MESSAGE_LEN content⟩

/-- `handle_key` on Enter in INSERT mode, where the input is not empty. -/
def composeInsert (now : Int) (username : CBuf MAX_USERNAME_LEN) (input : CBuf MAX_MESSAGE_LEN) : Option Message :=
  if input.bytes = [] then none else some (composeUserMessage now username.bytes input.bytes)

/-- `trim_ascii_whitespace` -/
def trimAsciiWhitespace (text : Bytes) : Bytes := ((text.dropWhile isSpace).reverse.dropWhile isSpace).reverse

/-- `resolve_exec_username` -/
def resolveExecUsername (charSigned : Bool) (sshLogin : CBuf MAX_USERNAME_LEN) : CBuf MAX_USERNAME_LEN :=
  let buffer :=
    if sshLogin.bytes ≠ [] ∧ isValidUsername charSigned sshLogin.bytes = true then sshLogin
    else CBuf.copy MAX_USERNAME_LEN (lit "anonymous")
  if utf8Strlen buffer.bytes > 20 then CBuf.copy MAX_USERNAME_LEN (utf8Truncate buffer.bytes 20) else buffer

/-- Why `exec_command_post` refuses. -/
inductive PostError
  | usage | tooLong | empty | invalidUtf8
  deriving DecidableEq

/-- `TNT_EXIT_USAGE`, or `TNT_EXIT_ERROR` -/
def PostError.exitStatus : PostError → Nat
  | usage | tooLong | empty => 64
  | invalidUtf8 => 1

/-- `exec_command_post`, up to the message it hands to `message_save`. -/
def composePost (charSigned : Bool) (now : Int) (sshLogin : CBuf MAX_USERNAME_LEN) (args : Bytes) :
    Except PostError Message :=
  if args = [] then .error .usage
  else if args.length ≥ MAX_MESSAGE_LEN then .error .tooLong
  else
    let content := trimAsciiWhitespace args
    if content = [] then .error .empty
    else if !utf8IsValidString content then .error .invalidUtf8
    else .ok (composeUserMessage now (resolveExecUsername charSigned sshLogin).bytes content)

/-- The sender name of a module. -/
def moduleSender (name : Bytes) : Bytes := lit "module:" ++ name.take TNT_MODULE_NAME_MAX

/-- `handle_module_response` and `publish_module_message`, up to the message. -/
def composeModule (now : Int) (name line : Bytes) : Option Message :=
  (parseMessageCreate line).map fun text => ⟨now, CBuf.copy MAX_USERNAME_LEN (moduleSender name), text⟩

theorem isInfix_trimAsciiWhitespace (text : Bytes) : trimAsciiWhitespace text <:+: text := by
  refine List.IsInfix.trans ?_ (List.dropWhile_suffix isSpace).isInfix
  apply List.IsPrefix.isInfix
  rw [← List.reverse_suffix, trimAsciiWhitespace, List.reverse_reverse]
  exact List.dropWhile_suffix isSpace

/-- What INSERT mode sends is composed of the input, -/
theorem composeInsert_some {now : Int} {username : CBuf MAX_USERNAME_LEN} {input : CBuf MAX_MESSAGE_LEN} {m : Message}
    (h : composeInsert now username input = some m) :
    input.bytes ≠ [] ∧ m = composeUserMessage now username.bytes input.bytes := by
  simp only [composeInsert, Option.ite_none_left_eq_some, Option.some.injEq] at h
  exact ⟨h.1, h.2.symm⟩

/-- and a post of its arguments without the spaces around them. -/
theorem composePost_some {charSigned : Bool} {now : Int} {sshLogin : CBuf MAX_USERNAME_LEN} {args : Bytes} {m : Message}
    (h : (composePost charSigned now sshLogin args).toOption = some m) :
    trimAsciiWhitespace args ≠ [] ∧ utf8IsValidString (trimAsciiWhitespace args) = true ∧
      (trimAsciiWhitespace args).length < MAX_MESSAGE_LEN ∧
      m = composeUserMessage now (resolveExecUsername charSigned sshLogin).bytes (trimAsciiWhitespace args) := by
  simp only [composePost] at h
  split_ifs at h with husage hlong hempty hvalid
  all_goals simp only [Except.toOption, reduceCtorEq, Option.some.injEq] at h
  rw [Bool.not_eq_true', Bool.not_eq_false] at hvalid
  exact ⟨hempty, hvalid, (isInfix_trimAsciiWhitespace args).length_le.trans_lt (Nat.not_le.1 hlong), h.symm⟩

/-! ## The author's name -/

theorem username_ne_nil {charSigned : Bool} {username : Bytes} (h : isValidUsername charSigned username = true) :
    username ≠ [] := by
  rintro rfl
  exact absurd h (by simp [isValidUsername])

theorem resolveExecUsername_ne_nil (charSigned : Bool) (sshLogin : CBuf MAX_USERNAME_LEN) :
    (resolveExecUsername charSigned sshLogin).bytes ≠ [] := by
  simp only [resolveExecUsername]
  obtain ⟨buffer, hb⟩ : ∃ buffer, buffer = if sshLogin.bytes ≠ [] ∧ isValidUsername charSigned sshLogin.bytes = true
    then sshLogin else CBuf.copy MAX_USERNAME_LEN (lit "anonymous") := ⟨_, rfl⟩
  have hne : buffer.bytes ≠ [] := by
    rw [hb]
    split
    · rename_i h
      exact h.1
    · decide
  rw [← hb]
  split
  · have hpre := isPrefix_utf8Truncate buffer.bytes 20
    rw [CBuf.copy_bytes (fun h0 => buffer.nul_free (hpre.subset h0)) (hpre.length_le.trans_lt buffer.fits)]
    exact utf8Truncate_ne_nil hne (by decide)
  · exact hne

/-! ## Which messages can be replayed -/

/-- A character that does not fit is cut inside when the byte after the last one kept continues it. -/
def cutsCharacter (cap : Nat) (text : Bytes) : Bool := isContinuation (byteAt text (cap - 1))

section User
variable (now : Int) (username : CBuf MAX_USERNAME_LEN) {content : Bytes}

/-- A text that is no action goes out as it is, under the user's name. -/
theorem composeUserMessage_text (h : actionText content = none) (h0 : 0 ∉ content)
    (hlen : content.length < MAX_MESSAGE_LEN) :
    (composeUserMessage now username.bytes content).username = username ∧
      (composeUserMessage now username.bytes content).content.bytes = content := by
  simp only [composeUserMessage, h]
  exact ⟨CBuf.copy_self username, CBuf.copy_bytes h0 hlen⟩

/-- An action goes out under `*`, behind the user's name, and as far as it fits. -/
theorem composeUserMessage_action {text : Bytes} (h : actionText content = some text) (h0 : 0 ∉ content) :
    (composeUserMessage now username.bytes content).username.bytes = lit "*" ∧
      (composeUserMessage now username.bytes content).content.bytes =
        username.bytes ++ 0x20 :: text.take (MAX_MESSAGE_LEN - 2 - username.bytes.length) := by
  have htext : 0 ∉ username.bytes ++ 0x20 :: text := by
    simp only [actionText, Option.ite_none_right_eq_some, Option.some.injEq] at h
    simp only [List.mem_append, List.mem_cons, not_or]
    exact ⟨username.nul_free, by decide, fun hm => h0 (List.mem_of_mem_drop (h.2 ▸ hm))⟩
  have hfits := username.fits
  have hlen : MAX_MESSAGE_LEN - 1 - username.bytes.length = MAX_MESSAGE_LEN - 2 - username.bytes.length + 1 := by
    simp only [MAX_USERNAME_LEN, MAX_MESSAGE_LEN] at hfits ⊢
    omega
  simp only [composeUserMessage, h]
  refine ⟨CBuf.copy_bytes (by decide) (by decide), ?_⟩
  rw [CBuf.copy_bytes_take htext, List.take_append, List.take_of_length_le, hlen, List.take_succ_cons]
  simp only [MAX_USERNAME_LEN, MAX_MESSAGE_LEN] at hfits ⊢
  omega

/-- A user's message is text exactly when the user's name is, and the end of an action was cut
between two characters. -/
theorem composeUserMessage_valid (hvalid : utf8IsValidString content = true) (hlen : content.length < MAX_MESSAGE_LEN)
    (hne : content ≠ []) (huser : username.bytes ≠ []) :
    let m := composeUserMessage now username.bytes content
    (m.username.bytes ≠ [] ∧ m.content.bytes ≠ [] ∧ utf8IsValidString m.username.bytes = true ∧
        utf8IsValidString m.content.bytes = true) ↔
      utf8IsValidString username.bytes = true ∧ ∀ text ∈ actionText content,
        cutsCharacter MAX_MESSAGE_LEN (username.bytes ++ 0x20 :: text) = false := by
  have h0 := valid_zero_notMem hvalid
  rcases haction : actionText content with _ | text
  · obtain ⟨hu, hc⟩ := composeUserMessage_text now username haction h0 hlen
    simp [hu, hc, huser, hne, hvalid]
  · obtain ⟨hu, hc⟩ := composeUserMessage_action now username haction h0
    have htext : utf8IsValidString text = true := by
      simp only [actionText, Option.ite_none_right_eq_some, Option.some.injEq, List.isPrefixOf_iff_prefix] at haction
      obtain ⟨⟨⟨t, rfl⟩, -⟩, rfl⟩ := haction
      rwa [valid_append (by decide)] at hvalid
    have hiff : utf8IsValidString (username.bytes ++ 0x20 :: text.take (MAX_MESSAGE_LEN - 2 - username.bytes.length)) =
        true ↔ utf8IsValidString username.bytes = true ∧
          cutsCharacter MAX_MESSAGE_LEN (username.bytes ++ 0x20 :: text) = false := by
      have hfits := username.fits
      have hfirst : byteAt (username.bytes ++ 0x20 :: text) (MAX_MESSAGE_LEN - 1) =
          byteAt text (MAX_MESSAGE_LEN - 2 - username.bytes.length) := by
        simp only [MAX_USERNAME_LEN, MAX_MESSAGE_LEN] at hfits ⊢
        simp only [byteAt, List.getD_eq_getElem?_getD]
        rw [List.getElem?_append_right (by omega),
          show 1024 - 1 - username.bytes.length = 1024 - 2 - username.bytes.length + 1 by omega,
          List.getElem?_cons_succ]
      rw [valid_split (by decide) (by decide), Bool.and_eq_true, valid_take htext, cutsCharacter, hfirst,
        Bool.not_eq_true']
    dsimp only
    rw [hu, hc, hiff]
    simp only [Option.mem_some_iff, forall_eq']
    exact ⟨fun h => h.2.2.2, fun h => ⟨by decide, by simp, by decide, h⟩⟩

end User

/-- Where a public message comes from, with what the message is composed of. -/
inductive Source
  /-- Enter in INSERT mode. -/
  | insert (username : CBuf MAX_USERNAME_LEN) (input : CBuf MAX_MESSAGE_LEN)
  /-- `exec post`, of the given login. -/
  | post (sshLogin : CBuf MAX_USERNAME_LEN) (args : Bytes)
  /-- A line from the module `name`. -/
  | module (name line : Bytes)
  deriving DecidableEq

namespace Source
variable (charSigned : Bool) (now : Int)

/-- What callers promise: INSERT mode edits valid text without controls under a valid username,
and a module was loaded under a valid name. -/
def Admissible : Source → Prop
  | insert username input => isValidUsername charSigned username.bytes = true ∧
      utf8IsValidString input.bytes = true ∧ ∀ b ∈ input.bytes, 0x20 ≤ b ∧ b ≠ 0x7F
  | post _ _ => True
  | module name _ => isValidModuleName name = true

/-- The message handed to `message_save`, when the source is accepted. -/
def message : Source → Option Message
  | insert username input => composeInsert now username input
  | post sshLogin args => (composePost charSigned now sshLogin args).toOption
  | module name line => composeModule now name line

/-- The name the message goes out under. -/
def author : Source → Bytes
  | insert username _ => username.bytes
  | post sshLogin _ => (resolveExecUsername charSigned sshLogin).bytes
  | module name _ => moduleSender name

/-- The text of an action. -/
def action : Source → Option Bytes
  | insert _ input => actionText input.bytes
  | post _ args => actionText (trimAsciiWhitespace args)
  | module _ _ => none

end Source

theorem moduleSender_ascii {name : Bytes} (h : isValidModuleName name = true) :
    (moduleSender name).length < MAX_USERNAME_LEN ∧ ∀ b ∈ moduleSender name, b ≠ 0 ∧ b.toNat < 0x80 := by
  obtain ⟨-, hchars⟩ := isValidModuleName_spec h
  constructor
  · rw [moduleSender, List.length_append, List.length_take]
    have : (lit "module:").length = 7 := by decide
    simp only [this, TNT_MODULE_NAME_MAX, MAX_USERNAME_LEN]
    omega
  · intro b hb
    rcases List.mem_append.1 hb with hb | hb
    · have hlit : ∀ b ∈ lit "module:", b ≠ 0 ∧ b.toNat < 0x80 := by decide +kernel
      exact hlit b hb
    · have := hchars b (List.mem_of_mem_take hb)
      simp only [UInt8.le_iff_toNat_le, UInt8.reduceToNat] at this
      exact ⟨by rintro rfl; simp at this, by omega⟩

/-- Which of the composed messages are text that the log can hold. -/
theorem source_message_valid {charSigned : Bool} {now : Int} {src : Source} {m : Message}
    (hsrc : src.Admissible charSigned) (hm : src.message charSigned now = some m) :
    m.timestamp = now ∧
    ((m.username.bytes ≠ [] ∧ m.content.bytes ≠ [] ∧ utf8IsValidString m.username.bytes = true ∧
        utf8IsValidString m.content.bytes = true) ↔
      utf8IsValidString (src.author charSigned) = true ∧ ∀ text ∈ src.action,
        cutsCharacter MAX_MESSAGE_LEN (src.author charSigned ++ 0x20 :: text) = false) := by
  have htime (username content : Bytes) : (composeUserMessage now username content).timestamp = now := by
    unfold composeUserMessage
    split <;> rfl
  cases src with
  | insert username input =>
    obtain ⟨hne, rfl⟩ := composeInsert_some hm
    exact ⟨htime _ _, composeUserMessage_valid now username hsrc.2.1 input.fits hne (username_ne_nil hsrc.1)⟩
  | post sshLogin args =>
    obtain ⟨hne, htext, hlen, rfl⟩ := composePost_some hm
    exact ⟨htime _ _, composeUserMessage_valid now _ htext hlen hne (resolveExecUsername_ne_nil _ _)⟩
  | module name line =>
    simp only [Source.message, composeModule, Option.map_eq_some_iff] at hm
    obtain ⟨text, htext, rfl⟩ := hm
    obtain ⟨hne, hvalid, -⟩ := parseMessageCreate_spec htext
    obtain ⟨hlen, hascii⟩ := moduleSender_ascii hsrc
    have hname : utf8IsValidString (moduleSender name) = true := valid_of_ascii hascii
    have hbytes : (CBuf.copy MAX_USERNAME_LEN (moduleSender name)).bytes = moduleSender name :=
      CBuf.copy_bytes (valid_zero_notMem hname) hlen
    refine ⟨rfl, ?_⟩
    simp only [hbytes, Source.author, Source.action, hname, hvalid]
    simp [moduleSender, lit, hne]

/-- A composed message is read back from its record, if and only if its author's name is text and it
was not cut inside a character. -/
theorem compose_replayable (charSigned : Bool) (now : Int) (src : Source) (m : Message) (hnow : ClockTime now)
    (hsrc : src.Admissible charSigned) (hm : src.message charSigned now = some m) :
    (∃ line, messageLogFormatRecord (safeMsg m) (MAX_USERNAME_LEN + MAX_MESSAGE_LEN + 48) = some line ∧
        messageLogParseRecord line now = some (safeMsg m)) ↔
      utf8IsValidString (src.author charSigned) = true ∧ ∀ text ∈ src.action,
        cutsCharacter MAX_MESSAGE_LEN (src.author charSigned ++ 0x20 :: text) = false := by
  obtain ⟨htime, hvalid⟩ := source_message_valid hsrc hm
  have hyear : FourDigitYear m.timestamp := htime ▸ hnow.fourDigitYear
  have hts : m.timestamp ≠ -1 := by
    have := hnow.1
    omega
  rw [← hvalid, formatRecord_safeMsg hyear]
  simp only [Option.some.injEq, exists_eq_left']
  have hreplay : Replayable now (safeMsg m) ↔ m.username.bytes ≠ [] ∧ m.content.bytes ≠ [] ∧
      utf8IsValidString m.username.bytes = true ∧ utf8IsValidString m.content.bytes = true := by
    rw [replayable_safeMsg]
    have hw : InWindow now m.timestamp := htime ▸ InWindow.refl now
    tauto
  rw [← hreplay]
  exact ⟨fun h => (parse_recordText_iff (m := safeMsg m) hyear (safeMsg_username m).1).1 ⟨_, h⟩,
    fun h => parse_recordText (m := safeMsg m) hyear h⟩

/-- `exec post hi` of the login `ann`. -/
theorem compose_replayable_post :
    ∃ m line, (Source.post (CBuf.copy MAX_USERNAME_LEN (lit "ann")) (lit "hi")).message true 1752500000 = some m ∧
      messageLogFormatRecord (safeMsg m) (MAX_USERNAME_LEN + MAX_MESSAGE_LEN + 48) = some line ∧
      messageLogParseRecord line 1752500000 = some (safeMsg m) := by
  obtain ⟨line, hline⟩ := (compose_replayable true 1752500000
    (.post (CBuf.copy MAX_USERNAME_LEN (lit "ann")) (lit "hi"))
    ⟨1752500000, CBuf.copy MAX_USERNAME_LEN (lit "ann"), CBuf.copy MAX_MESSAGE_LEN (lit "hi")⟩
    (by decide) trivial (by decide)).2 ⟨by decide, by decide⟩
  exact ⟨_, line, by decide, hline⟩

/-- An action of `anna` that ends in a character of two bytes, as long as INSERT mode allows. -/
def longAction : Source :=
  .insert (CBuf.copy MAX_USERNAME_LEN (lit "anna"))
    (CBuf.copy MAX_MESSAGE_LEN (lit "/me " ++ List.replicate 1017 0x61 ++ [0xC3, 0xA9]))

/-- With the name and a space in front, the last byte of that character is cut off. -/
theorem longAction_not_replayable :
    longAction.Admissible true ∧
      ((longAction.message true 1752500000).map fun m =>
        (messageLogFormatRecord (safeMsg m) (MAX_USERNAME_LEN + MAX_MESSAGE_LEN + 48)).bind
          (messageLogParseRecord · 1752500000)) = some none :=
  ⟨⟨by decide, by decide +kernel, by decide +kernel⟩, by decide +kernel⟩

end Tnt
