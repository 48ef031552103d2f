import Tnt.Common
/-!
# Notices of the server (`system_message.c`, `i18n.c`)

Joins, leaves and renames are told by messages under a name of the server's own,
in the language of the client. A message is recognised as one of them by its
name and by phrases in its text.
-/
open BaseLib

namespace Tnt

/-- `ui_lang_t` -/
inductive UiLang
  | en | zh
  deriving DecidableEq

/-- `is_lang_boundary` -/
def isLangBoundary (value : Bytes) : Bool :=
  byteAt value 0 == 0 || byteAt value 0 == 0x5F || byteAt value 0 == 0x2D || byteAt value 0 == 0x2E || value.all isSpace

/-- `starts_with_lang` -/
def startsWithLang (value start : Bytes) : Bool :=
  let value := value.dropWhile isSpace
  (start.map toLower).isPrefixOf (value.map toLower) && isLangBoundary (value.drop start.length)

/-- `i18n_try_parse_ui_lang` -/
def i18nTryParseUiLang (value : Bytes) : Option UiLang :=
  if value = [] then none
  else if startsWithLang value (lit "en") || startsWithLang value (lit "c") || startsWithLang value (lit "posix") then
    some .en
  else if startsWithLang value (lit "zh") then some .zh
  else none

/-- `i18n_next_ui_lang` -/
def i18nNextUiLang : UiLang → UiLang
  | .en => .zh
  | .zh => .en

/-- `I18N_SYSTEM_USERNAME` -/
def systemUsername : UiLang → Bytes
  | .en => lit "system"
  | .zh => lit "系统"

/-- What a notice tells. -/
inductive Notice
  | join (username : CBuf MAX_USERNAME_LEN)
  | leave (username : CBuf MAX_USERNAME_LEN)
  | nick (oldName newName : CBuf MAX_USERNAME_LEN)
  deriving DecidableEq

/-- `I18N_SYSTEM_JOIN_FORMAT`, `I18N_SYSTEM_LEAVE_FORMAT` and `I18N_SYSTEM_NICK_FORMAT`, filled in. -/
def Notice.text : Notice → UiLang → Bytes
  | .join username, .en => username.bytes ++ lit " joined the room"
  | .join username, .zh => username.bytes ++ lit " 加入了聊天室"
  | .leave username, .en => username.bytes ++ lit " left the room"
  | .leave username, .zh => username.bytes ++ lit " 离开了聊天室"
  | .nick oldName newName, .en => oldName.bytes ++ lit " renamed to " ++ newName.bytes
  | .nick oldName newName, .zh => oldName.bytes ++ lit " 更名为 " ++ newName.bytes

/-- `system_message_make_join`, `system_message_make_leave` and `system_message_make_nick`. -/
def systemMessageMake (now : Int) (notice : Notice) (lang : UiLang) : Message :=
  ⟨now, CBuf.copy _ (systemUsername lang), CBuf.copy _ (notice.text lang)⟩

/-- `system_message_is_system` -/
def systemMessageIsSystem (msg : Message) : Bool :=
  msg.username.bytes == lit "系统" || msg.username.bytes == lit "system"

/-- `system_message_is_join_leave` -/
def systemMessageIsJoinLeave (msg : Message) : Bool :=
  if !systemMessageIsSystem msg then false
  else strstr msg.content.bytes (lit "加入了聊天室") || strstr msg.content.bytes (lit "离开了聊天室") ||
    strstr msg.content.bytes (lit "joined the room") || strstr msg.content.bytes (lit "left the room")

/-- Every notice is a system message. -/
theorem systemMessageIsSystem_make (now : Int) (notice : Notice) (lang : UiLang) :
    systemMessageIsSystem (systemMessageMake now notice lang) = true := by
  cases lang <;> rfl

/-- A notice has no control in it that is not in a name. -/
theorem Notice.text_plain {notice : Notice} {lang : UiLang}
    (h : match notice with
      | .join username | .leave username => Plain username.bytes
      | .nick oldName newName => Plain oldName.bytes ∧ Plain newName.bytes) : Plain (notice.text lang) := by
  cases notice with
  | join username => cases lang <;> exact plain_append.2 ⟨h, by decide +kernel⟩
  | leave username => cases lang <;> exact plain_append.2 ⟨h, by decide +kernel⟩
  | nick oldName newName => cases lang <;> exact plain_append.2 ⟨plain_append.2 ⟨h.1, by decide +kernel⟩, h.2⟩

end Tnt
