import Tnt.ExecDispatch
import Tnt.InboxOutput
import Tnt.SessionKeys
import Tnt.Suggestions
import Tnt.TerminalSafety
/-!
# What a command answers (`commands.c`, `command_catalog.c`, `manual_text.c`, `theme.c`)

`commands_dispatch` runs a command and puts its answer together, from texts of the server and from what other clients
are called, say and write to the client.
-/
open BaseLib

namespace Tnt

/-! ## The catalog and the manual -/

/-- `manual_usage` -/
def CommandId.manualUsage : CommandId → Option Bytes
  | .users => some (lit ":users")
  | .msg => some (lit ":msg <user> <message>")
  | .reply => some (lit ":reply <message>")
  | .inbox => some (lit ":inbox")
  | .nick => some (lit ":nick <name>")
  | .last => some (lit ":last [N]")
  | .search => some (lit ":search <keyword>")
  | .muteJoins => some (lit ":mute-joins")
  | .theme => some (lit ":theme")
  | .help | .lang => none
  | .clear => some (lit ":clear")
  | .quit => some (lit ":q")

/-- `manual_group` -/
def CommandId.manualGroup : CommandId → Nat
  | .users | .last | .search => 1
  | .msg | .reply | .inbox | .nick => 2
  | .muteJoins | .theme | .clear | .quit => 3
  | .help | .lang => 0

/-- `error_usage` -/
def CommandId.errorUsage : CommandId → UiLang → Bytes
  | .users => i18nString "Usage: users\n" "用法: users\n"
  | .msg => i18nString "Usage: msg <user> <message>\n       w <user> <message>\n"
    "用法: msg <user> <message>\n      w <user> <message>\n"
  | .reply => i18nString "Usage: reply <message>\n       r <message>\n" "用法: reply <message>\n      r <message>\n"
  | .inbox => i18nString "Usage: inbox [clear]\n" "用法: inbox [clear]\n"
  | .nick => i18nString "Usage: nick <name>\n" "用法: nick <name>\n"
  | .last => i18nString "Usage: last [N]  (N: 1-50, default 10)\n" "用法: last [N]  (N: 1-50，默认 10)\n"
  | .search => i18nString "Usage: search <keyword>\n" "用法: search <keyword>\n"
  | .muteJoins => i18nString "Usage: mute-joins\n" "用法: mute-joins\n"
  | .theme => i18nString "Usage: theme [name]\n" "用法: theme [name]\n"
  | .help => i18nString "Usage: help\n" "用法: help\n"
  | .lang => i18nString "Usage: lang <en|zh>\n" "用法: lang <en|zh>\n"
  | .clear => i18nString "Usage: clear\n" "用法: clear\n"
  | .quit => i18nString "Usage: q\n" "用法: q\n"

/-- The texts, with `sep` before each but the first. -/
def separated (sep : Bytes) : List Bytes → List Bytes
  | [] => []
  | first :: rest => first :: rest.flatMap fun text => [sep, text]

/-- One round of `command_catalog_append_manual`. -/
def manualLine (group : Nat) : List Bytes :=
  let usages := commandCatalog.filterMap fun (id, _) => if id.manualGroup = group then id.manualUsage else none
  [lit "  "] ++ separated (lit ", ") usages ++ [[newline]]

/-- `intro`, line by line. -/
def manualIntro : UiLang → List Bytes
  | .en => [lit "\x1b[1;36mTNT(1) help\x1b[0m\n", [newline], lit "\x1b[1;37mName\x1b[0m\n",
    lit "  TNT - SSH terminal chat room\n", [newline], lit "\x1b[1;37mUse\x1b[0m\n",
    lit "  Type, Enter sends; Up/Down recalls; Tab completes @mentions\n",
    lit "  Esc browses; / searches; G latest; i/a/o types; : commands; ? keys\n", [newline],
    lit "\x1b[1;37mCommands\x1b[0m\n"]
  | .zh => [lit "\x1b[1;36mTNT(1) 帮助\x1b[0m\n", [newline], lit "\x1b[1;37m名称\x1b[0m\n",
    lit "  TNT - SSH 终端聊天室\n", [newline], lit "\x1b[1;37m使用\x1b[0m\n",
    lit "  输入并 Enter 发送；Up/Down 调出消息；Tab 补全 @mention\n",
    lit "  Esc 浏览；/ 搜索；G 最新；i/a/o 输入；: 命令；? 按键\n", [newline], lit "\x1b[1;37m命令\x1b[0m\n"]

/-- `outro` -/
def manualOutro : UiLang → List Bytes
  | .en => [[newline], lit "\x1b[1;37mLanguage\x1b[0m\n", lit "  :lang                  show current language\n",
    lit "  :lang en|zh            switch language\n", [newline], lit "\x1b[1;37mSee also\x1b[0m\n",
    lit "  ?                      full key reference\n"]
  | .zh => [[newline], lit "\x1b[1;37m语言\x1b[0m\n", lit "  :lang                  显示当前语言\n",
    lit "  :lang en|zh            切换语言\n", [newline], lit "\x1b[1;37m参见\x1b[0m\n",
    lit "  ?                      完整按键参考\n"]

/-- `manual_text_append_interactive` -/
def manualText (lang : UiLang) : List Bytes :=
  [(manualIntro lang).flatten] ++ [1, 2, 3].flatMap manualLine ++ [(manualOutro lang).flatten]

/-! ## The themes -/

/-- `theme_resolve`, by number. -/
def themeResolve (index : Int) : Nat := if index < 0 ∨ index ≥ themeNames.length then 0 else index.toNat

/-- `accent` -/
def accent (themeIndex : Int) : Bytes := lit "\x1b[" ++ themeColours.getD (themeResolve themeIndex) [] ++ lit "m"

/-- `theme_find`, by number. -/
def themeFind (name : Bytes) : Option Nat := if name = [] then none else themeNames.findIdx? (· == name)

/-- What `theme_append_names` leaves in a buffer of 256. -/
def themeAppendNames : Bytes := (separated (lit ", ") themeNames).foldl (bufferAppend 256) []

/-! ## The users -/

/-- An entry of `g_room->clients`. -/
structure RoomMember where
  number : Nat
  username : CBuf MAX_USERNAME_LEN
  connectTime : Int

/-- `dur_str` -/
def durationText (dur : Int) : Bytes :=
  if dur < 60 then intText dur ++ lit "s"
  else if dur < 3600 then intText (dur / 60) ++ lit "m"
  else intText (dur / 3600) ++ lit "h" ++ intText (dur % 3600 / 60) ++ lit "m"

/-- `(int)(now - connect_time)` -/
def connectedFor (now : Int) (member : RoomMember) : Int := (BitVec.ofInt 32 (now - member.connectTime)).toInt

/-- The row of a client, with a bar before the client that asks. -/
def userRow (themeIndex : Int) (self : Nat) (now : Int) (member : RoomMember) : Bytes :=
  (if member.number = self then accent themeIndex ++ lit "▎\x1b[0m" else lit " ") ++ lit "  \x1b[37m" ++
    member.username.bytes ++ lit "\x1b[0m  \x1b[2;37m· " ++ durationText (connectedFor now member) ++ lit "\x1b[0m\n"

/-- What `:users` appends, call by call. -/
def usersParts (lang : UiLang) (themeIndex : Int) (self : Nat) (now : Int) (room : List RoomMember) : List Bytes :=
  (accentBold themeIndex ++ i18nString "Online users" "在线用户" lang ++ lit "\x1b[0m  \x1b[2;37m· " ++
    decimal room.length ++ lit "\x1b[0m\n") :: room.map (userRow themeIndex self now)

/-! ## The commands -/

/-- The fields of `client_t` that commands read and change. -/
structure CommandClient extends WhisperClient where
  number : Nat
  uiLang : UiLang
  muteJoins : Bool
  themeIndex : Int
  connected : Bool

/-- What a command finds behind the locks that it takes, and in the log. -/
structure CommandSights where
  room : List RoomMember
  dir : LogDir
  now : Int

/-- What a command does beyond its client. -/
inductive CommandEffect
  | none
  /-- The inbox of the client with this number gets a message. -/
  | whispered (target : Nat) (content : Bytes)
  | published (msg : Message)

/-- The calls that put `output` together, and `output_kind`; nothing where `cmd_done` is not reached. -/
structure CommandAnswer where
  client : CommandClient
  shown : Option (CommandOutputKind × List Bytes)
  effect : CommandEffect

/-- `client->command_output` after the command, where it has an answer. -/
def CommandAnswer.output (answer : CommandAnswer) : Option Bytes := answer.shown.map fun shown => commandOutput shown.2

/-- The count of `:last`. -/
def lastCount (arg : Bytes) : Option Nat :=
  let arg := skipSpaces arg
  if arg = [] then some 10
  else
    match strtol arg with
    | some (val, []) => if val < 1 ∨ val > 50 then none else some val.toNat
    | _ => none

section Dispatch
variable (charSigned : Bool) (clock : Int → CBuf 20) (c : CommandClient) (f : CommandSights)

/-- An answer, and nothing else. -/
def CommandClient.prints (parts : List Bytes) : CommandAnswer := ⟨c, some (.none, parts), .none⟩

/-- `send_private_message` -/
def sendPrivateMessage (kind : WhisperKind) (targetName : CBuf MAX_USERNAME_LEN) (content : Bytes) : CommandAnswer :=
  match f.room.find? (·.username = targetName) with
  | none =>
    c.prints [i18nString "User '" "未找到用户 '" c.uiLang ++ targetName.bytes ++
      i18nString "' not found\n" "'\n" c.uiLang]
  | some target =>
    let own := if target.number = c.number
      then clientAppendWhisper c.toWhisperClient kind target.number f.now c.username targetName content false true
      else clientAppendWhisper c.toWhisperClient kind target.number f.now c.username targetName content true false
    ⟨{ c with toWhisperClient := own },
      some (.none, [i18nString "Private message sent to " "私信已发送给 " c.uiLang ++ targetName.bytes ++ [newline]]),
      if target.number = c.number then .none else .whispered target.number content⟩

/-- `:nick` -/
def nickAnswer (arg : Bytes) : CommandAnswer :=
  match validatedName charSigned arg with
  | .error .usage => c.prints [CommandId.nick.errorUsage c.uiLang]
  | .error .invalid => c.prints [i18nString "Invalid username\n" "用户名无效\n" c.uiLang]
  | .ok name =>
    let taken := name != c.username && f.room.any fun member => member.number != c.number && member.username == name
    if taken then
      c.prints [i18nString "Nickname '" "昵称 '" c.uiLang ++ name.bytes ++
        i18nString "' is already taken\n" "' 已被使用\n" c.uiLang]
    else if name = c.username then c.prints [i18nString "Nickname unchanged\n" "昵称未变化\n" c.uiLang]
    else
      ⟨{ c with username := name },
        some (.none, [i18nString "Nickname changed: " "昵称已修改: " c.uiLang ++ c.username.bytes ++ lit " -> " ++
          name.bytes ++ [newline]]),
        .published (systemMessageMake f.now (.nick c.username name) c.uiLang)⟩

/-- `:theme` -/
def themeAnswer (arg : Bytes) : CommandAnswer :=
  let name := skipSpaces arg
  if name = [] then
    c.prints [i18nString "Current theme: " "当前主题: " c.uiLang ++ themeNames.getD (themeResolve c.themeIndex) [] ++
      i18nString "\nAvailable: " "\n可用: " c.uiLang ++ themeAppendNames ++
      i18nString "\nUsage: theme <name>\n" "\n用法: theme <name>\n" c.uiLang]
  else
    match themeFind name with
    | some chosen =>
      ⟨{ c with themeIndex := chosen },
        some (.none, [i18nString "Theme set to: " "主题已切换为: " c.uiLang ++ themeNames.getD chosen [] ++ [newline]]),
        .none⟩
    | none =>
      c.prints [i18nString "Unsupported theme: " "不支持的主题: " c.uiLang ++ name ++
        i18nString "\nAvailable: " "\n可用: " c.uiLang ++ themeAppendNames ++ [newline]]

/-- `i18n_ui_lang_code` -/
def i18nUiLangCode : UiLang → Bytes
  | .en => lit "en"
  | .zh => lit "zh"

/-- `:lang` -/
def langAnswer (arg : Bytes) : CommandAnswer :=
  if arg = [] then
    c.prints [i18nString "Current language: " "当前语言: " c.uiLang ++ i18nUiLangCode c.uiLang ++
      i18nString "\nUsage: lang <en|zh>\n" "\n用法: lang <en|zh>\n" c.uiLang]
  else
    match i18nTryParseUiLang arg with
    | some next =>
      ⟨{ c with uiLang := next },
        some (.none, [i18nString "Language set to: " "语言已切换为: " next ++ i18nUiLangCode next ++ [newline]]),
        .none⟩
    | none =>
      c.prints [i18nString "Unsupported language: " "不支持的语言: " c.uiLang ++ arg ++
        i18nString "\nUsage: lang <en|zh>\n" "\n用法: lang <en|zh>\n" c.uiLang]

/-- The answer to a line that is no command. -/
def unknownParts (lang : UiLang) (cmd : Bytes) : List Bytes :=
  [i18nString "Unknown command: " "未知命令: " lang ++ cmd ++ [newline]] ++
    (commandCatalogSuggest cmd).toList.map (fun suggestion =>
      i18nString "Did you mean :" "你是想输入 :" lang ++ suggestion ++ i18nString "?\n" " 吗?\n" lang) ++
    [i18nString "Type :help for help\n" "输入 :help 查看帮助\n" lang]

/-- `commands_dispatch`, for a line with a command in it. -/
def dispatchCommand (cmd : Bytes) : CommandAnswer :=
  match commandCatalogMatch cmd with
  | none => c.prints (unknownParts c.uiLang cmd)
  | some (id, arg) =>
    let usage := c.prints [id.errorUsage c.uiLang]
    if !commandCatalogArgsValid id arg then usage
    else
      match id with
      | .users => c.prints (usersParts c.uiLang c.themeIndex c.number f.now f.room)
      | .help => c.prints (manualText c.uiLang)
      | .lang => langAnswer c arg
      | .msg =>
        match msgArgs arg with
        | none => usage
        | some (targetName, rest) => sendPrivateMessage c f .msg targetName rest
      | .reply =>
        let message := skipSpaces arg
        if message = [] then usage
        else if c.lastWhisperPeer.bytes = [] then
          c.prints [i18nString "No private message to reply to\n" "没有可回复的私信\n" c.uiLang]
        else sendPrivateMessage c f (.reply c.peer) c.lastWhisperPeer message
      | .inbox =>
        let cleared := skipSpaces arg = lit "clear"
        let own := if cleared then clearInbox c.toWhisperClient else c.toWhisperClient
        let (parts, read) := appendInboxOutput clock c.uiLang c.themeIndex own
        ⟨{ c with toWhisperClient := read },
          some (.inbox, (if cleared then [inboxCleared c.uiLang, [newline]] else []) ++ parts), .none⟩
      | .nick => nickAnswer charSigned c f arg
      | .last =>
        match lastCount arg with
        | none => usage
        | some n =>
          c.prints ((lastFormat (fun t => (clock t).bytes) c.uiLang).parts (lastMessages f.dir c.muteJoins n f.now))
      | .search =>
        let query := skipSpaces arg
        if query = [] then usage
        else
          c.prints ((searchFormat (fun t => (clock t).bytes) c.uiLang query).parts
            (searchMessages f.dir c.muteJoins query f.now))
      | .muteJoins =>
        let muted := !c.muteJoins
        ⟨{ c with muteJoins := muted },
          some (.none, [i18nString "Join/leave notifications: " "加入/离开提示: " c.uiLang ++
            (if muted then i18nString "muted" "已静音" c.uiLang else i18nString "unmuted" "已开启" c.uiLang) ++ [newline]]),
          .none⟩
      | .theme => themeAnswer c arg
      | .quit => ⟨{ c with connected := false }, none, .none⟩
      | .clear => c.prints [i18nString "Command output cleared\n" "命令输出已清空\n" c.uiLang]

end Dispatch

/-! ## What the keys see of it -/

/-- The client of a session, with its number and its inbox. -/
def ClientState.commandClient (s : ClientState) (number : Nat) (own : WhisperClient) : CommandClient :=
  ⟨own, number, s.uiLang, s.muteJoins, s.themeIndex, s.connected⟩

/-- A session agrees with its client after a command, and shows the answer. -/
structure Agrees (s : ClientState) (answer : CommandAnswer) : Prop where
  uiLang : s.uiLang = answer.client.uiLang
  muteJoins : s.muteJoins = answer.client.muteJoins
  themeIndex : (s.themeIndex : Int) = answer.client.themeIndex
  connected : s.connected = answer.client.connected
  shown : ∀ kind parts, answer.shown = some (kind, parts) →
    s.commandOutputKind = kind ∧ s.commandOutput = commandOutput parts

section Keys
variable {S : Feed UInt8} {s : ClientState} {a : Surroundings S} {charSigned : Bool} {clock : Int → CBuf 20}
  {f : CommandSights} {number : Nat} {own : WhisperClient} {cmd : Bytes}

theorem agrees_shown {client : CommandClient} {parts : List Bytes} {effect : CommandEffect}
    (hlang : s.uiLang = client.uiLang) (hmute : s.muteJoins = client.muteJoins)
    (htheme : (s.themeIndex : Int) = client.themeIndex) (hconnected : s.connected = client.connected)
    (hshown : s.commandOutput = commandOutput parts) :
    Agrees s ⟨client, some (s.commandOutputKind, parts), effect⟩ := by
  refine ⟨hlang, hmute, htheme, hconnected, fun kind' parts' h => ?_⟩
  cases h
  exact ⟨rfl, hshown⟩

/-- The client keeps its settings, and has an answer. -/
structure OnlyAnswers (c : CommandClient) (answer : CommandAnswer) : Prop where
  uiLang : answer.client.uiLang = c.uiLang
  muteJoins : answer.client.muteJoins = c.muteJoins
  themeIndex : answer.client.themeIndex = c.themeIndex
  connected : answer.client.connected = c.connected
  shown : ∃ parts, answer.shown = some (.none, parts)

theorem onlyAnswers_prints (c : CommandClient) (parts : List Bytes) : OnlyAnswers c (c.prints parts) :=
  ⟨rfl, rfl, rfl, rfl, parts, rfl⟩

theorem onlyAnswers_send (c : CommandClient) (kind : WhisperKind) (targetName : CBuf MAX_USERNAME_LEN)
    (content : Bytes) : OnlyAnswers c (sendPrivateMessage c f kind targetName content) := by
  unfold sendPrivateMessage
  split
  · exact onlyAnswers_prints c _
  · exact ⟨rfl, rfl, rfl, rfl, _, rfl⟩

theorem onlyAnswers_nick (c : CommandClient) (arg : Bytes) : OnlyAnswers c (nickAnswer charSigned c f arg) := by
  unfold nickAnswer
  split
  · exact onlyAnswers_prints c _
  · exact onlyAnswers_prints c _
  · dsimp only
    split
    · exact onlyAnswers_prints c _
    split
    · exact onlyAnswers_prints c _
    · exact ⟨rfl, rfl, rfl, rfl, _, rfl⟩

theorem OnlyAnswers.agrees (number : Nat) (own : WhisperClient) {answer : CommandAnswer}
    {line : Editor MAX_COMMAND_INPUT_LEN} (h : OnlyAnswers (s.commandClient number own) answer)
    (ha : ∀ output, answer.output = some output → a.output = output) :
    Agrees (ClientState.drawOutput { s with
      commandOutput := a.output, commandOutputScroll := 0, commandOutputKind := .none, command := line }) answer := by
  obtain ⟨client, shown, effect⟩ := answer
  obtain ⟨parts, rfl⟩ := h.shown
  exact agrees_shown h.uiLang.symm h.muteJoins.symm h.themeIndex.symm h.connected.symm (ha _ rfl)

/-- `dispatch` of the keys is what is left of `dispatchCommand` when the answer is given. -/
theorem dispatch_agrees
    (ha : ∀ output, (dispatchCommand charSigned clock (s.commandClient number own) f cmd).output = some output →
      a.output = output) :
    Agrees (s.dispatch a cmd) (dispatchCommand charSigned clock (s.commandClient number own) f cmd) := by
  unfold ClientState.dispatch
  unfold dispatchCommand at ha ⊢
  rcases hmatch : commandCatalogMatch cmd with _ | ⟨id, arg⟩ <;> rw [hmatch] at ha
  · exact (onlyAnswers_prints _ _).agrees number own ha
  dsimp only at ha ⊢
  split
  · rename_i hargs
    rw [if_pos hargs] at ha
    exact (onlyAnswers_prints _ _).agrees number own ha
  rename_i hargs
  rw [if_neg hargs] at ha
  cases id with
  | users | help | clear => exact (onlyAnswers_prints _ _).agrees number own ha
  | lang =>
    by_cases harg : arg = []
    · subst harg
      exact (onlyAnswers_prints _ _).agrees number own ha
    cases hlang : i18nTryParseUiLang arg with
    | none =>
      simp only [langAnswer, if_neg harg, hlang] at ha ⊢
      exact (onlyAnswers_prints _ _).agrees number own ha
    | some next =>
      simp only [langAnswer, if_neg harg, hlang] at ha ⊢
      exact agrees_shown rfl rfl rfl rfl (ha _ rfl)
  | msg =>
    refine OnlyAnswers.agrees number own ?_ ha
    dsimp only
    split
    · exact onlyAnswers_prints _ _
    · exact onlyAnswers_send _ _ _ _
  | reply =>
    refine OnlyAnswers.agrees number own ?_ ha
    dsimp only
    split
    · exact onlyAnswers_prints _ _
    split
    · exact onlyAnswers_prints _ _
    · exact onlyAnswers_send _ _ _ _
  | inbox => exact agrees_shown rfl rfl rfl rfl (ha _ rfl)
  | nick => exact (onlyAnswers_nick _ arg).agrees number own ha
  | last =>
    refine OnlyAnswers.agrees number own ?_ ha
    dsimp only
    split <;> exact onlyAnswers_prints _ _
  | search =>
    refine OnlyAnswers.agrees number own ?_ ha
    dsimp only
    split <;> exact onlyAnswers_prints _ _
  | muteJoins => exact agrees_shown rfl rfl rfl rfl (ha _ rfl)
  | theme =>
    by_cases hname : skipSpaces arg = []
    · simp only [themeAnswer, hname, if_true] at ha ⊢
      exact (onlyAnswers_prints _ _).agrees number own ha
    cases hfind : themeNames.findIdx? (· == skipSpaces arg) with
    | none =>
      simp only [themeAnswer, if_neg hname, themeFind, hfind] at ha ⊢
      exact (onlyAnswers_prints _ _).agrees number own ha
    | some chosen =>
      simp only [themeAnswer, if_neg hname, themeFind, hfind] at ha ⊢
      exact agrees_shown rfl rfl rfl rfl (ha _ rfl)
  | quit => exact ⟨rfl, rfl, rfl, rfl, fun _ _ h => absurd h (Option.some_ne_none _).symm⟩

end Keys

section Fits
variable {charSigned : Bool} {clock : Int → CBuf 20} {c : CommandClient} {f : CommandSights} {cmd : Bytes}

theorem length_i18nString_le {en zh : String} {n : Nat} (hen : (lit en).length ≤ n) (hzh : (lit zh).length ≤ n)
    (lang : UiLang) : (i18nString en zh lang).length ≤ n := by
  cases lang
  · exact hen
  · exact hzh

theorem length_errorUsage_le (id : CommandId) (lang : UiLang) : (id.errorUsage lang).length ≤ 64 := by
  cases id <;> cases lang <;> decide +kernel

theorem length_manualText_le (lang : UiLang) : (manualText lang).flatten.length ≤ 1024 := by
  cases lang <;> decide +kernel

theorem length_themeColour_le (n : Nat) : (themeColours.getD n []).length ≤ 2 := by
  rw [List.getD_eq_getElem?_getD]
  cases h : themeColours[n]? with
  | none => exact Nat.zero_le _
  | some colour => exact (by decide : ∀ colour ∈ themeColours, colour.length ≤ 2) colour (List.mem_of_getElem? h)

theorem length_themeName_le (n : Nat) : (themeNames.getD n []).length ≤ 7 := by
  rw [List.getD_eq_getElem?_getD]
  cases h : themeNames[n]? with
  | none => exact Nat.zero_le _
  | some name => exact (by decide : ∀ name ∈ themeNames, name.length ≤ 7) name (List.mem_of_getElem? h)

theorem commandCatalogSuggest_mem {name suggestion : Bytes} (h : commandCatalogSuggest name = some suggestion) :
    ∃ entry ∈ commandCatalog, entry.2.headD [] = suggestion := by
  have hbest : ∀ s, (commandCatalog.foldl (fun best (_, names) => names.foldl (nearer name (names.headD [])) best)
      (none, 99)).1 = some s → ∃ entry ∈ commandCatalog, entry.2.headD [] = s := by
    refine List.foldlRecOn (motive := fun best : Nearest => ∀ s, best.1 = some s →
      ∃ entry ∈ commandCatalog, entry.2.headD [] = s) commandCatalog _
      (fun _ h => absurd h.symm (Option.some_ne_none _)) fun best hbest entry hentry => ?_
    refine List.foldlRecOn (motive := fun best : Nearest => ∀ s, best.1 = some s →
      ∃ entry ∈ commandCatalog, entry.2.headD [] = s) entry.2 _ hbest fun best hbest candidate _ s hs => ?_
    simp only [nearer] at hs
    split at hs
    · exact ⟨entry, hentry, Option.some.inj hs⟩
    · exact hbest s hs
  unfold commandCatalogSuggest at h
  split at h
  · cases h
  · dsimp only at h
    split at h
    · exact hbest suggestion h
    · cases h

theorem length_suggestion_le {name suggestion : Bytes} (h : commandCatalogSuggest name = some suggestion) :
    suggestion.length ≤ 10 := by
  obtain ⟨entry, hentry, rfl⟩ := commandCatalogSuggest_mem h
  exact (by decide : ∀ entry ∈ commandCatalog, (entry.2.headD []).length ≤ 10) entry hentry

theorem length_unknownParts_le (lang : UiLang) (hcmd : cmd.length < MAX_COMMAND_INPUT_LEN) :
    (unknownParts lang cmd).flatten.length ≤ 400 := by
  have hunknown := length_i18nString_le (by decide : (lit "Unknown command: ").length ≤ 17)
    (by decide : (lit "未知命令: ").length ≤ 17) lang
  have hguidance := length_i18nString_le (by decide : (lit "Type :help for help\n").length ≤ 32)
    (by decide : (lit "输入 :help 查看帮助\n").length ≤ 32) lang
  have hbefore := length_i18nString_le (by decide : (lit "Did you mean :").length ≤ 20)
    (by decide : (lit "你是想输入 :").length ≤ 20) lang
  have hafter := length_i18nString_le (by decide : (lit "?\n").length ≤ 8) (by decide : (lit " 吗?\n").length ≤ 8) lang
  rw [MAX_COMMAND_INPUT_LEN] at hcmd
  unfold unknownParts
  cases h : commandCatalogSuggest cmd with
  | none =>
    simp only [Option.toList_none, List.map_nil, List.append_nil, List.flatten_append, List.flatten_singleton,
      List.length_append, List.length_singleton]
    omega
  | some suggestion =>
    have hsuggestion := length_suggestion_le h
    simp only [Option.toList_some, List.map_cons, List.map_nil, List.flatten_append, List.flatten_singleton,
      List.length_append, List.length_singleton]
    omega

theorem length_durationText_le (now : Int) (member : RoomMember) :
    (durationText (connectedFor now member)).length ≤ 24 := by
  have hle := BitVec.toInt_le (x := BitVec.ofInt 32 (now - member.connectTime))
  have hge := BitVec.le_toInt (BitVec.ofInt 32 (now - member.connectTime))
  have hlit : (lit "s").length = 1 ∧ (lit "m").length = 1 ∧ (lit "h").length = 1 := by decide
  unfold durationText connectedFor
  generalize (BitVec.ofInt 32 (now - member.connectTime)).toInt = dur at hle hge
  split
  · have hseconds := @length_intText_le dur 9 (by omega) (by omega)
    rw [List.length_append]
    omega
  split
  · have hminutes := @length_intText_le (dur / 60) 9 (by omega) (by omega)
    rw [List.length_append]
    omega
  · have hhours := @length_intText_le (dur / 3600) 9 (by omega) (by omega)
    have hminutes := @length_intText_le (dur % 3600 / 60) 9 (by omega) (by omega)
    simp only [List.length_append]
    omega

theorem length_accent_le (themeIndex : Int) : (accent themeIndex).length ≤ 5 := by
  have hcolour := length_themeColour_le (themeResolve themeIndex)
  have hlit : (lit "\x1b[").length + (lit "m").length = 3 := by decide
  unfold accent
  simp only [List.length_append]
  omega

theorem length_userRow_le (themeIndex : Int) (self : Nat) (now : Int) (member : RoomMember) :
    (userRow themeIndex self now member).length ≤ 127 := by
  have hname := member.username.fits
  have hcap : MAX_USERNAME_LEN = 64 := rfl
  have hdur := length_durationText_le now member
  have haccent := length_accent_le themeIndex
  have hgutter : (if member.number = self then accent themeIndex ++ lit "▎\x1b[0m" else lit " ").length ≤ 12 := by
    split
    · rw [List.length_append, (by decide : (lit "▎\x1b[0m").length = 7)]
      omega
    · decide
  have hlit : (lit "  \x1b[37m").length + (lit "\x1b[0m  \x1b[2;37m· ").length + (lit "\x1b[0m\n").length = 28 := by
    decide
  unfold userRow
  simp only [List.length_append]
  omega

/-- As many clients as the server takes by default find room in the answer. -/
theorem length_usersParts_le (lang : UiLang) (themeIndex : Int) (self : Nat) (now : Int) {room : List RoomMember}
    (hroom : room.length ≤ 64) :
    (usersParts lang themeIndex self now room).flatten.length < MAX_COMMAND_OUTPUT_LEN := by
  have hrows : (room.map (userRow themeIndex self now)).flatten.length ≤ room.length * 127 := by
    rw [← List.length_map (f := userRow themeIndex self now)]
    refine length_flatten_le_mul fun part hpart => ?_
    obtain ⟨member, -, rfl⟩ := List.mem_map.1 hpart
    exact length_userRow_le themeIndex self now member
  have haccent := length_accentBold_le themeIndex
  have htitle := length_i18nString_le (by decide : (lit "Online users").length ≤ 12)
    (by decide : (lit "在线用户").length ≤ 12) lang
  have hcount : (decimal room.length).length ≤ 2 := length_decimal_le (by omega)
  have hlit : (lit "\x1b[0m  \x1b[2;37m· ").length + (lit "\x1b[0m\n").length = 21 := by decide
  have hcap : MAX_COMMAND_OUTPUT_LEN = 8192 := rfl
  unfold usersParts
  simp only [List.flatten_cons, List.length_append]
  omega

/-- The answer is not cut. -/
def CommandAnswer.Whole (answer : CommandAnswer) : Prop :=
  ∀ shown, answer.shown = some shown → shown.2.flatten.length < MAX_COMMAND_OUTPUT_LEN

theorem whole_of_le {client : CommandClient} {kind : CommandOutputKind} {parts : List Bytes} {effect : CommandEffect}
    (h : parts.flatten.length < MAX_COMMAND_OUTPUT_LEN) : CommandAnswer.Whole ⟨client, some (kind, parts), effect⟩ := by
  intro shown hshown
  cases hshown
  exact h

theorem sendPrivateMessage_whole (kind : WhisperKind) (targetName : CBuf MAX_USERNAME_LEN) (content : Bytes) :
    (sendPrivateMessage c f kind targetName content).Whole := by
  have hname := targetName.fits
  have hcap : MAX_USERNAME_LEN = 64 ∧ MAX_COMMAND_OUTPUT_LEN = 8192 := ⟨rfl, rfl⟩
  have hbefore := @length_i18nString_le "User '" "未找到用户 '" 20 (by decide) (by decide) c.uiLang
  have hafter := @length_i18nString_le "' not found\n" "'\n" 20 (by decide) (by decide) c.uiLang
  have hsent := @length_i18nString_le "Private message sent to " "私信已发送给 " 30 (by decide) (by decide) c.uiLang
  unfold sendPrivateMessage
  split
  · apply whole_of_le
    simp only [List.flatten_singleton, List.length_append]
    omega
  · apply whole_of_le
    simp only [List.flatten_singleton, List.length_append, List.length_singleton]
    omega

theorem nickAnswer_whole (arg : Bytes) : (nickAnswer charSigned c f arg).Whole := by
  have hcap : MAX_USERNAME_LEN = 64 ∧ MAX_COMMAND_OUTPUT_LEN = 8192 := ⟨rfl, rfl⟩
  have hold := c.username.fits
  have husage := length_errorUsage_le .nick c.uiLang
  have hinvalid := @length_i18nString_le "Invalid username\n" "用户名无效\n" 20 (by decide) (by decide) c.uiLang
  have htaken := @length_i18nString_le "Nickname '" "昵称 '" 20 (by decide) (by decide) c.uiLang
  have hused := @length_i18nString_le "' is already taken\n" "' 已被使用\n" 20 (by decide) (by decide) c.uiLang
  have hsame := @length_i18nString_le "Nickname unchanged\n" "昵称未变化\n" 20 (by decide) (by decide) c.uiLang
  have hchanged := @length_i18nString_le "Nickname changed: " "昵称已修改: " 20 (by decide) (by decide) c.uiLang
  have harrow : (lit " -> ").length = 4 := by decide
  unfold nickAnswer
  split
  · apply whole_of_le
    rw [List.flatten_singleton]
    omega
  · apply whole_of_le
    rw [List.flatten_singleton]
    omega
  · rename_i name hname
    have hnew := name.fits
    dsimp only
    split
    · apply whole_of_le
      simp only [List.flatten_singleton, List.length_append]
      omega
    split
    · apply whole_of_le
      rw [List.flatten_singleton]
      omega
    · apply whole_of_le
      simp only [List.flatten_singleton, List.length_append, List.length_singleton]
      omega

theorem length_themeAppendNames : themeAppendNames.length = 44 := by decide +kernel

theorem themeAnswer_whole {arg : Bytes} (harg : arg.length < MAX_COMMAND_INPUT_LEN) : (themeAnswer c arg).Whole := by
  have hcap : MAX_COMMAND_INPUT_LEN = 256 ∧ MAX_COMMAND_OUTPUT_LEN = 8192 := ⟨rfl, rfl⟩
  have hname : (skipSpaces arg).length ≤ arg.length := List.length_dropWhile_le _ _
  have hcurrent := @length_i18nString_le "Current theme: " "当前主题: " 20 (by decide) (by decide) c.uiLang
  have havailable := @length_i18nString_le "\nAvailable: " "\n可用: " 20 (by decide) (by decide) c.uiLang
  have husage := @length_i18nString_le "\nUsage: theme <name>\n" "\n用法: theme <name>\n" 30 (by decide) (by decide)
    c.uiLang
  have hset := @length_i18nString_le "Theme set to: " "主题已切换为: " 30 (by decide) (by decide) c.uiLang
  have hunknown := @length_i18nString_le "Unsupported theme: " "不支持的主题: " 30 (by decide) (by decide) c.uiLang
  have hnames := length_themeAppendNames
  unfold themeAnswer
  dsimp only
  split
  · have hnow := length_themeName_le (themeResolve c.themeIndex)
    apply whole_of_le
    simp only [List.flatten_singleton, List.length_append]
    omega
  split
  · rename_i chosen hchosen
    have hnew := length_themeName_le chosen
    apply whole_of_le
    simp only [List.flatten_singleton, List.length_append, List.length_singleton]
    omega
  · apply whole_of_le
    simp only [List.flatten_singleton, List.length_append, List.length_singleton]
    omega

theorem langAnswer_whole {arg : Bytes} (harg : arg.length < MAX_COMMAND_INPUT_LEN) : (langAnswer c arg).Whole := by
  have hcap : MAX_COMMAND_INPUT_LEN = 256 ∧ MAX_COMMAND_OUTPUT_LEN = 8192 := ⟨rfl, rfl⟩
  have hcode : ∀ lang, (i18nUiLangCode lang).length = 2 := by rintro ⟨⟩ <;> decide
  have hcurrent := @length_i18nString_le "Current language: " "当前语言: " 20 (by decide) (by decide) c.uiLang
  have husage := @length_i18nString_le "\nUsage: lang <en|zh>\n" "\n用法: lang <en|zh>\n" 30 (by decide) (by decide)
    c.uiLang
  have hset := @length_i18nString_le "Language set to: " "语言已切换为: " 30 (by decide) (by decide)
  have hunknown := @length_i18nString_le "Unsupported language: " "不支持的语言: " 30 (by decide) (by decide) c.uiLang
  unfold langAnswer
  split
  · have hnow := hcode c.uiLang
    apply whole_of_le
    simp only [List.flatten_singleton, List.length_append]
    omega
  split
  · rename_i next hnext
    have hnew := hcode next
    have htext := hset next
    apply whole_of_le
    simp only [List.flatten_singleton, List.length_append, List.length_singleton]
    omega
  · apply whole_of_le
    simp only [List.flatten_singleton, List.length_append]
    omega

theorem inboxParts_lt (hc : ShortInbox c.toWhisperClient) (cleared : Bool) :
    ((if cleared then [inboxCleared c.uiLang, [newline]] else []) ++
      (appendInboxOutput clock c.uiLang c.themeIndex c.toWhisperClient).1).flatten.length < MAX_COMMAND_OUTPUT_LEN := by
  have hcap : MAX_COMMAND_OUTPUT_LEN = 8192 := rfl
  have hentries : c.whisperInbox.length ≤ 16 := hc.entries
  have hheading := length_inboxHeading_le c.uiLang c.themeIndex cleared hc
  have hrows : (c.whisperInbox.reverse.map (entryText clock c.uiLang)).flatten.length ≤
      c.whisperInbox.length * 382 := by
    refine (length_flatten_le_mul (k := 382) fun part hpart => ?_).trans_eq ?_
    · obtain ⟨x, hx, rfl⟩ := List.mem_map.1 hpart
      exact length_entryText_le clock c.uiLang (hc.contents x (List.mem_reverse.1 hx))
    · rw [List.length_map, List.length_reverse]
  rw [flatten_parts_inbox, List.length_append]
  omega

theorem ShortInbox.clear {w : WhisperClient} (h : ShortInbox w) : ShortInbox (clearInbox w) :=
  ⟨Nat.zero_le _, fun _ hx => absurd hx List.not_mem_nil, h.sending⟩

/-- Every answer but those to `:last` and `:search` fits. -/
theorem dispatchCommand_whole (hcmd : cmd.length < MAX_COMMAND_INPUT_LEN) (hroom : f.room.length ≤ 64)
    (hinbox : ShortInbox c.toWhisperClient)
    (hid : ∀ id arg, commandCatalogMatch cmd = some (id, arg) → id ≠ .last ∧ id ≠ .search) :
    (dispatchCommand charSigned clock c f cmd).Whole := by
  have hcap : MAX_COMMAND_OUTPUT_LEN = 8192 := rfl
  have husage (id : CommandId) : (c.prints [id.errorUsage c.uiLang]).Whole := by
    apply whole_of_le
    have := length_errorUsage_le id c.uiLang
    rw [List.flatten_singleton]
    omega
  unfold dispatchCommand
  split
  · apply whole_of_le
    have := length_unknownParts_le c.uiLang hcmd
    omega
  rename_i id arg hmatch
  have harg : arg.length < MAX_COMMAND_INPUT_LEN := (commandCatalogMatch_suffix hmatch).length_le.trans_lt hcmd
  obtain ⟨hlast, hsearch⟩ := hid id arg hmatch
  dsimp only
  split
  · exact husage id
  cases id with
  | users => exact whole_of_le (length_usersParts_le _ _ _ _ hroom)
  | help =>
    apply whole_of_le
    have := length_manualText_le c.uiLang
    omega
  | lang => exact langAnswer_whole harg
  | msg =>
    dsimp only
    split
    · exact husage .msg
    · exact sendPrivateMessage_whole _ _ _
  | reply =>
    dsimp only
    split
    · exact husage .reply
    split
    · apply whole_of_le
      have := @length_i18nString_le "No private message to reply to\n" "没有可回复的私信\n" 40 (by decide) (by decide)
        c.uiLang
      rw [List.flatten_singleton]
      omega
    · exact sendPrivateMessage_whole _ _ _
  | inbox =>
    apply whole_of_le
    by_cases hclear : skipSpaces arg = lit "clear"
    · have := @inboxParts_lt clock { c with toWhisperClient := clearInbox c.toWhisperClient } hinbox.clear true
      simpa only [hclear, if_true] using this
    · have := @inboxParts_lt clock c hinbox false
      simpa only [hclear, if_false, Bool.false_eq_true] using this
  | nick => exact nickAnswer_whole arg
  | last => exact absurd rfl hlast
  | search => exact absurd rfl hsearch
  | muteJoins =>
    have hnotices := @length_i18nString_le "Join/leave notifications: " "加入/离开提示: " 30 (by decide) (by decide) c.uiLang
    have hmuted := @length_i18nString_le "muted" "已静音" 10 (by decide) (by decide) c.uiLang
    have hunmuted := @length_i18nString_le "unmuted" "已开启" 10 (by decide) (by decide) c.uiLang
    apply whole_of_le
    simp only [List.flatten_singleton, List.length_append, List.length_singleton]
    split <;> omega
  | theme => exact themeAnswer_whole harg
  | clear =>
    apply whole_of_le
    have := @length_i18nString_le "Command output cleared\n" "命令输出已清空\n" 30 (by decide) (by decide) c.uiLang
    rw [List.flatten_singleton]
    omega
  | quit => exact fun _ h => absurd h (Option.some_ne_none _).symm

end Fits

/-- In every state that typed commands lead to, and in every room of as many clients as the server takes by default,
the answer to a command other than `:last` and `:search` is shown whole. -/
theorem answers_whole {charSigned : Bool} {capacity : Nat} {es : List WhisperEvent} {s : WhisperRoom}
    (htyped : ∀ e ∈ es, Typed e) (hrun : exec (whisperStep charSigned capacity) .init es = some s) {i : Nat}
    {c : CommandClient} (hc : s.clients[i]? = some c.toWhisperClient) (clock : Int → CBuf 20) {f : CommandSights}
    (hroom : f.room.length ≤ TNT_CONFIG_MAX_CONNECTIONS.fallback) {line : CBuf MAX_COMMAND_INPUT_LEN}
    (hid : ∀ m ∈ commandCatalogMatch (commandText line), m.1 ≠ .last ∧ m.1 ≠ .search) :
    ∀ kind parts, (dispatchCommand charSigned clock c f (commandText line)).shown = some (kind, parts) →
      (dispatchCommand charSigned clock c f (commandText line)).output = some parts.flatten := by
  intro kind parts hshown
  have hinit : ShortInboxes .init := fun _ _ h => by simp [WhisperRoom.init] at h
  have hmeets : Meets (whisperStep charSigned capacity) (fun _ e => Typed e) .init es := meets_of_forall htyped
  have hshort : ShortInboxes s :=
    exec_inv_of_meets ShortInboxes (fun _ _ _ h he hs => shortInboxes_step h he hs) hinit hmeets hrun
  have hline : (commandText line).length < MAX_COMMAND_INPUT_LEN :=
    (commandText_isInfix line).length_le.trans_lt line.fits
  have hwhole : (dispatchCommand charSigned clock c f (commandText line)).Whole :=
    dispatchCommand_whole hline (Int.ofNat_le.1 hroom) (hshort i _ hc) fun id arg hmatch => hid (id, arg) hmatch
  rw [CommandAnswer.output, hshown, Option.map_some, commandOutput_eq]
  exact congrArg some (List.take_of_length_le (Nat.le_sub_one_of_lt (hwhole _ hshown)))

/-- Ann, alone in the room. -/
def annAsks : CommandClient where
  toWhisperClient := ⟨CBuf.copy _ (lit "ann"), [], 0, CBuf.copy _ [], none, none⟩
  number := 0
  uiLang := .en
  muteJoins := false
  themeIndex := 0
  connected := true

theorem answers_whole_ann :
    ∃ s, exec (whisperStep true 64) .init [.join (CBuf.copy _ (lit "ann"))] = some s ∧
      (dispatchCommand true (fun _ => CBuf.copy _ (lit "07-14 13:33")) annAsks
        ⟨[⟨0, CBuf.copy _ (lit "ann"), 1752499940⟩], ⟨none, none⟩, 1752500000⟩
        (commandText (CBuf.copy _ (lit ":who ")))).output =
          some (lit "\x1b[1;36mOnline users\x1b[0m  \x1b[2;37m· 1\x1b[0m\n" ++
            lit "\x1b[36m▎\x1b[0m  \x1b[37mann\x1b[0m  \x1b[2;37m· 1m\x1b[0m\n") := by
  refine ⟨_, rfl, ?_⟩
  refine (@answers_whole true 64 [.join (CBuf.copy _ (lit "ann"))] _ (List.forall_mem_singleton.2 trivial) rfl 0
    annAsks rfl _ ⟨[⟨0, CBuf.copy _ (lit "ann"), 1752499940⟩], ⟨none, none⟩, 1752500000⟩ (by decide)
    (CBuf.copy _ (lit ":who ")) (by decide) _ _ rfl).trans ?_
  decide +kernel

end Tnt
