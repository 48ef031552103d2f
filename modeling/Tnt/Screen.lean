import Tnt.LiveHistory
import Tnt.MessageRow
import Tnt.Outbox
import Tnt.TitleBar
import Tnt.TypedLines
/-!
# The frame of a screen (`tui.c`, `tui_status.c`)

`tui_render_screen` builds its frame in a buffer sized by the rows of the terminal and sends it through the outbox of
the client, which disconnects the client when the frame is larger than the outbox. A date takes three bytes for each
column, so many dates on a large terminal do: `screen_accepted_iff`.
-/
open BaseLib

namespace Tnt

/-- `"%Y-%m-%d"`, filled in. -/
abbrev DateText := { s : Bytes // s.length = 10 }

/-- What `localtime_r` makes of a timestamp, as the screen shows it. -/
structure LocalTime where
  date : DateText
  hour : Fin 24
  minute : Fin 60

/-! ## The messages of a frame -/

/-- A row of the history: the divider in front of the messages of a day, or a message. -/
inductive ScreenRow
  | divider (date : DateText)
  | message (msg : Message)

/-- The loop that draws the messages. -/
def drawRows (date : Message → DateText) (msgHeight : Nat) : Nat → Option DateText → List Message → List ScreenRow
  | _, _, [] => []
  | rowsWritten, lastDate, msg :: rest =>
    if rowsWritten < msgHeight then
      if some (date msg) ≠ lastDate then
        if rowsWritten + 1 ≥ msgHeight then [.divider (date msg)]
        else
          .divider (date msg) :: .message msg :: drawRows date msgHeight (rowsWritten + 2) (some (date msg)) rest
      else .message msg :: drawRows date msgHeight (rowsWritten + 1) lastDate rest
    else []

/-! ## What is written -/

/-- What `tui_render_screen` reads of a client. -/
structure ScreenClient where
  title : TitleClient
  width : Nat
  height : Nat
  view : HistoryView
  commandInput : CBuf MAX_COMMAND_INPUT_LEN

/-- The line is cleared from here on, and the next one begins. -/
def clearEnd : Bytes := csi [] 0x4B ++ lit "\r\n"

/-- A divider: the dashes are appended one by one. -/
def dividerParts (renderWidth : Nat) (date : DateText) : List Bytes :=
  let dashFill := renderWidth - (3 + 10 + 1)
  [csi (lit "2;37") 0x6D ++ lit "── " ++ date.val ++ lit " "] ++ List.replicate dashFill (lit "─") ++
    [ansiReset ++ clearEnd]

/-- `I18N_EMPTY_FILTERED` -/
def emptyFiltered : UiLang → Bytes
  | .en => lit "No visible messages"
  | .zh => lit "暂无可见消息"

/-- `I18N_EMPTY_ROOM` -/
def emptyRoom : UiLang → Bytes
  | .en => lit "No messages yet"
  | .zh => lit "暂无消息"

/-- What is written where there is no row. -/
def emptyParts (renderWidth : Nat) (text : Bytes) : List Bytes :=
  List.replicate ((renderWidth - utf8StringWidth text) / 2) (lit " ") ++
    [csi (lit "2;37") 0x6D ++ text ++ ansiReset ++ clearEnd]

/-- `I18N_INSERT_HINT_WIDE` -/
def insertHintWide : UiLang → Bytes
  | .en => lit "Enter send · : commands · :help guide · Esc NORMAL"
  | .zh => lit "Enter 发送 · : 命令 · :help 指引 · Esc NORMAL"

/-- `I18N_INSERT_HINT_NARROW` -/
def insertHintNarrow : Bytes := lit "Enter · Esc"

/-- `I18N_NORMAL_NEW_MESSAGES` -/
def normalNewMessages : UiLang → Bytes
  | .en => lit "new"
  | .zh => lit "新消息"

/-- `I18N_NORMAL_LATEST` -/
def normalLatest : UiLang → Bytes
  | .en => lit "G latest"
  | .zh => lit "G 最新"

/-- The prompt of INSERT mode. -/
def insertPrompt : Bytes := csi (lit "2;37") 0x6D ++ lit "›" ++ ansiReset ++ lit " "

/-- `tui_status_append` -/
def tuiStatusAppend (c : ScreenClient) (status : StatusNumbers) : Bytes :=
  let lang := c.title.uiLang
  match c.title.mode with
  | .insert =>
    if c.width ≥ 58 then
      insertPrompt ++ lit " " ++ csi (lit "2;37") 0x6D ++ insertHintWide lang ++ ansiReset ++ csi [] 0x4B
    else if c.width ≥ 36 then
      insertPrompt ++ lit " " ++ csi (lit "2;37") 0x6D ++ insertHintNarrow ++ ansiReset ++ csi [] 0x4B
    else insertPrompt ++ csi [] 0x4B
  | .normal =>
    let range := csi (lit "7;33") 0x6D ++ lit " NORMAL " ++ ansiReset ++ lit "  " ++ csi (lit "2;37") 0x6D ++
      decimal status.rangeStart ++ lit "-" ++ decimal status.rangeEnd ++ lit " / " ++ decimal status.total ++
      ansiReset ++ lit "   "
    if status.unseen > 0 then
      range ++ csi (lit "33") 0x6D ++ lit "▼ " ++ decimal status.unseen.toNat ++ lit " " ++ normalNewMessages lang ++
        lit " · " ++ normalLatest lang ++ ansiReset ++ csi [] 0x4B
    else range ++ csi (lit "2;37") 0x6D ++ normalLatest lang ++ ansiReset ++ csi [] 0x4B
  | .command =>
    csi (lit "35") 0x6D ++ lit ":" ++ ansiReset ++ commandDisplay c.commandInput c.width ++ csi [] 0x4B

section Frame
variable (localtime : Int → LocalTime) (c : ScreenClient)

/-- `render_width` -/
def ScreenClient.renderWidth : Nat := if c.width < 10 then 10 else c.width

/-- `render_height` -/
def ScreenClient.renderHeight : Nat := if c.height < 4 then 4 else c.height

/-- `msg_height` -/
def ScreenClient.msgHeight : Nat := historyViewHeight c.renderHeight

/-- `buf_size` -/
def ScreenClient.bufSize : Nat := (c.renderHeight + 10) * (MAX_MESSAGE_LEN + 64) + 2048

/-- The strings that a row is made of. -/
def rowParts : ScreenRow → List Bytes
  | .divider date => dividerParts c.renderWidth date
  | .message msg =>
    let t := localtime msg.timestamp
    [messageRow msg t.hour t.minute c.renderWidth c.title.username.bytes c.title.code ++ clearEnd]

/-- The messages that a frame shows. -/
def screenSnapshot (first second : List Message) : Snapshot :=
  tuiSnapshot (fun msg => (localtime msg.timestamp).date) (c.title.mode = .normal) c.title.muteJoins c.view c.msgHeight
    first second

/-- The rows of the history in a frame. -/
def screenRows (first second : List Message) : List ScreenRow :=
  drawRows (fun msg => (localtime msg.timestamp).date) c.msgHeight 0 none
    (screenSnapshot localtime c first second).messages

/-- What stands in place of a history without rows. -/
def emptyText (first second : List Message) : Bytes :=
  let rawMsgCount := if c.title.muteJoins ∧ first.length > 0 then second.length else first.length
  if c.title.muteJoins ∧ rawMsgCount > 0 then emptyFiltered c.title.uiLang else emptyRoom c.title.uiLang

/-- The strings that `tui_render_screen` appends to its buffer. -/
def screenParts (first second : List Message) : List Bytes :=
  let s := screenSnapshot localtime c first second
  let rows := screenRows localtime c first second
  let rowsWritten := if rows = [] then 1 else rows.length
  [csi [] 0x48, titleLine c.title c.renderWidth ++ clearEnd] ++
    (if rows = [] then emptyParts c.renderWidth (emptyText c first second)
      else rows.flatMap (rowParts localtime c)) ++
    List.replicate (c.msgHeight - rowsWritten) clearEnd ++
    (List.replicate c.renderWidth (lit "─") ++ [clearEnd]) ++
    [tuiStatusAppend c (LiveFrame.status ⟨s.msgCount, s.start, s.stop, []⟩)]

/-- The frame, of a buffer of `buf_size`. -/
def screenFrame (first second : List Message) : Bytes :=
  (screenParts localtime c first second).foldl (bufferAppend c.bufSize) []

/-- The frame is sent: it is not cut, and the outbox takes it. -/
structure FrameAccepted (first second : List Message) (out : ClientOutput) : Prop where
  whole : screenFrame localtime c first second = (screenParts localtime c first second).flatten
  capacity : (screenFrame localtime c first second).length ≤ CLIENT_OUTBOX_CAPACITY
  accepted : (clientEnqueueOutputLocked out (screenFrame localtime c first second) true).1 = 0
  connected : (clientEnqueueOutputLocked out (screenFrame localtime c first second) true).2.connected = true

/-! ## How much is written -/

/-- The bytes of the chips, with a dot between any two. -/
def chipsSize : List TitleChip → Nat
  | [] => 0
  | chip :: rest => chip.valueColor.length + chip.value.length + 7 +
      (rest.map fun chip => 15 + (chip.valueColor.length + chip.value.length + 7)).sum

/-- The bytes of the title bar. -/
def titleSize (t : TitleClient) (renderWidth : Nat) : Nat :=
  let p := titleFit t renderWidth
  6 + chipsSize (t.chips.take p.showChips) + (if p.showMute then (titleMuted t.uiLang).length + 13 else 0) +
    (if p.showUnread then t.unreadBuf.length + 13 else 0) + (if p.showWhisper then t.whisperBuf.length + 13 else 0) +
    titleGap t p renderWidth + if p.showHint then t.hint.length + 12 else 0

/-- The bytes of the row of a message. -/
def messageSize (msg : Message) : Nat :=
  let t := localtime msg.timestamp
  let content := (rowContent msg t.hour t.minute c.renderWidth).length
  let viewer := c.title.username.bytes
  let code := c.title.code.length
  (if isSelf msg viewer then code + 10 else 1) +
    if systemMessageIsSystem msg then content + 13
    else if isAction msg then content + code + 24
    else
      msg.username.bytes.length + content + 26 +
        if viewer ≠ [] ∧ systemMessageIsSystem msg = false ∧ strstr msg.content.bytes (0x40 :: viewer) = true then 11
        else 0

/-- The bytes of a row of the history. -/
def rowSize : ScreenRow → Nat
  | .divider _ => 34 + 3 * (c.renderWidth - 14)
  | .message msg => messageSize localtime c msg + 5

/-- The bytes of a frame. -/
def screenSize (first second : List Message) : Nat :=
  let s := screenSnapshot localtime c first second
  let rows := screenRows localtime c first second
  let text := emptyText c first second
  3 + titleSize c.title c.renderWidth +
    (if rows = [] then (c.renderWidth - utf8StringWidth text) / 2 + text.length + 16
      else (rows.map (rowSize localtime c)).sum) +
    5 * (c.msgHeight - if rows = [] then 1 else rows.length) + (3 * c.renderWidth + 5) +
    (tuiStatusAppend c (LiveFrame.status ⟨s.msgCount, s.start, s.stop, []⟩)).length

end Frame

section Sizes
variable {localtime : Int → LocalTime} {c : ScreenClient} {first second : List Message}

/-- The message of a row. -/
def ScreenRow.message? : ScreenRow → Option Message
  | divider _ => none
  | message msg => some msg

theorem drawRows_messages (date : Message → DateText) (msgHeight rowsWritten : Nat) (last : Option DateText)
    (messages : List Message) :
    (drawRows date msgHeight rowsWritten last messages).filterMap ScreenRow.message? =
      drawMessages date msgHeight rowsWritten last messages := by
  induction messages generalizing rowsWritten last with
  | nil => rfl
  | cons msg rest ih =>
    rw [drawRows, drawMessages]
    split
    · split
      · split
        · rfl
        · exact congrArg (msg :: ·) (ih _ _)
      · exact congrArg (msg :: ·) (ih _ _)
    · rfl

/-- A screen shows the messages of its frame. -/
theorem screenRows_messages (localtime : Int → LocalTime) (c : ScreenClient) (first second : List Message) :
    (screenRows localtime c first second).filterMap ScreenRow.message? =
      (tuiRenderLive (fun msg => (localtime msg.timestamp).date) (c.title.mode = .normal) c.title.muteJoins c.view
        c.height first second).drawn :=
  drawRows_messages ..

theorem length_clearEnd : clearEnd.length = 5 := by decide

theorem length_messageRow (hcode : c.title.code ∈ themeCodes) (msg : Message) :
    (messageRow msg (localtime msg.timestamp).hour (localtime msg.timestamp).minute c.renderWidth
      c.title.username.bytes c.title.code).length = messageSize localtime c msg := by
  generalize ht : localtime msg.timestamp = t
  have htime := (rowTime_text t.hour t.minute).2
  have hcolor : ((usernameColor msg.username.bytes).params c.title.code).length = 2 := by
    unfold usernameColor
    dsimp only
    generalize (⟨_, _⟩ : Fin 6) = i
    show (lit "3" ++ decimal (i + 1)).length = 2
    revert i
    decide
  have hlits : (lit "▎").length = 3 ∧ (lit " ").length = 1 ∧ (lit "--> ").length = 4 ∧ (lit ": ").length = 2 := by
    decide
  -- The parameters of the styles.
  have hdim : (Style.dim.params c.title.code).length = 2 := rfl
  have hreset : (Style.reset.params c.title.code).length = 1 := rfl
  have hhighlight : (Style.highlight.params c.title.code).length = 4 := rfl
  have hitalic : (Style.accentItalic.params c.title.code).length = c.title.code.length + 2 := by
    rw [Style.params, List.length_append, Nat.add_comm]
    rfl
  have haccent : (Style.accent.params c.title.code).length = c.title.code.length := rfl
  rw [messageRow_eq hcode, rowSpans, formatMessageColored_eq]
  unfold messageSize
  dsimp only
  rw [ht]
  generalize rowContent msg t.hour t.minute c.renderWidth = content
  rw [List.map_append, lineBytes_append, List.length_append]
  congr 1
  · split <;> simp [Piece.span, Span.sgr, Span.bytes, length_csi] <;> omega
  · split
    · simp [Piece.span, Span.sgr, Span.bytes, length_csi]
      omega
    · split
      · simp [Piece.span, Span.sgr, Span.bytes, length_csi]
        omega
      · split <;> simp [rowName, Piece.span, Span.sgr, Span.bytes, length_csi] <;> omega

/-- Equal strings one behind the other. -/
theorem length_flatten_replicate (n : Nat) (s : Bytes) : (List.replicate n s).flatten.length = n * s.length := by
  rw [List.length_flatten, List.map_replicate, List.sum_replicate_nat]

theorem length_dividerParts (renderWidth : Nat) (date : DateText) :
    (dividerParts renderWidth date).flatten.length = 34 + 3 * (renderWidth - 14) := by
  have hlits : (lit "2;37").length = 4 ∧ (lit "── ").length = 7 ∧ (lit " ").length = 1 ∧ ansiReset.length = 4 := by
    decide
  have hdash : (lit "─").length = 3 := by decide
  have hdate := date.property
  unfold dividerParts
  simp only [List.flatten_append, List.length_append, List.flatten_cons, List.flatten_nil, List.append_nil,
    length_flatten_replicate, length_csi, length_clearEnd, hdash]
  omega

theorem length_emptyParts (renderWidth : Nat) (text : Bytes) :
    (emptyParts renderWidth text).flatten.length = (renderWidth - utf8StringWidth text) / 2 + text.length + 16 := by
  have hlits : (lit "2;37").length = 4 ∧ ansiReset.length = 4 := by decide
  have hspace : (lit " ").length = 1 := by decide
  unfold emptyParts
  simp only [List.flatten_append, List.length_append, List.flatten_cons, List.flatten_nil, List.append_nil,
    length_flatten_replicate, length_csi, length_clearEnd, hspace]
  omega

theorem length_chipsSpans (chips : List TitleChip) : (lineBytes (chipsSpans chips)).length = chipsSize chips := by
  have hdot : (lineBytes titleDot).length = 15 := by decide
  have hrest (rest : List TitleChip) : (lineBytes (rest.flatMap fun chip => titleDot ++ chip.spans)).length =
      (rest.map fun chip => 15 + (chip.valueColor.length + chip.value.length + 7)).sum := by
    induction rest with
    | nil => rfl
    | cons chip rest ih =>
      rw [List.flatMap_cons, lineBytes_append, lineBytes_append, List.length_append, List.length_append, hdot,
        TitleChip.spans, length_styled, ih, List.map_cons, List.sum_cons]
  cases chips with
  | nil => rfl
  | cons chip rest =>
    rw [chipsSpans, lineBytes_append, List.length_append, TitleChip.spans, length_styled, hrest, chipsSize]

theorem length_titleLine (hc : c.title.Proper) :
    (titleLine c.title c.renderWidth ++ clearEnd).length = titleSize c.title c.renderWidth := by
  have hlits : (lit "2;37").length = 4 ∧ (lit "1;33").length = 4 ∧ (lit "1;35").length = 4 ∧ (lit " ").length = 1 := by
    decide
  have hmarker {color value : Bytes} (h : color.length = 4) :
      (lineBytes (titleMarker color value)).length = value.length + 13 := by
    rw [length_titleMarker]
    omega
  rw [titleLine_eq hc, List.length_append, length_clearEnd]
  unfold titleSize
  dsimp only
  generalize titleFit c.title c.renderWidth = p
  rw [titleSpans, lineBytes_cons, lineBytes_append, lineBytes_cons, titleLeft, lineBytes_append, lineBytes_append,
    lineBytes_append]
  simp only [List.length_append, Span.bytes, List.length_replicate, length_chipsSpans, length_titleRight]
  rw [length_lineBytes_ite, length_lineBytes_ite, length_lineBytes_ite, hmarker hlits.1, hmarker hlits.2.1,
    hmarker hlits.2.2.1]
  omega

/-- The rows of a frame take what they take each. -/
theorem length_rowParts (hcode : c.title.code ∈ themeCodes) (rows : List ScreenRow) :
    (rows.flatMap (rowParts localtime c)).flatten.length = (rows.map (rowSize localtime c)).sum := by
  induction rows with
  | nil => rfl
  | cons row rows ih =>
    have hrow : (rowParts localtime c row).flatten.length = rowSize localtime c row := by
      cases row with
      | divider date => exact length_dividerParts c.renderWidth date
      | message msg =>
        unfold rowParts rowSize
        dsimp only
        rw [List.flatten_singleton, List.length_append, length_messageRow hcode, length_clearEnd]
    rw [List.flatMap_cons, List.flatten_append, List.length_append, hrow, ih, List.map_cons, List.sum_cons]

theorem length_screenParts (hc : c.title.Proper) :
    (screenParts localtime c first second).flatten.length = screenSize localtime c first second := by
  have hhome : (csi [] 0x48).length = 3 := by decide
  have hdash : (lit "─").length = 3 := by decide
  have hrows : (if screenRows localtime c first second = [] then emptyParts c.renderWidth (emptyText c first second)
      else (screenRows localtime c first second).flatMap (rowParts localtime c)).flatten.length =
      if screenRows localtime c first second = [] then
        (c.renderWidth - utf8StringWidth (emptyText c first second)) / 2 + (emptyText c first second).length + 16
      else ((screenRows localtime c first second).map (rowSize localtime c)).sum := by
    split
    · exact length_emptyParts _ _
    · exact length_rowParts hc.code _
  unfold screenParts screenSize
  dsimp only
  simp only [List.flatten_append, List.length_append, List.flatten_cons, List.flatten_nil, List.append_nil,
    length_flatten_replicate, hrows, hhome, hdash, length_clearEnd]
  rw [← length_titleLine hc, List.length_append, length_clearEnd]
  omega

/-- An empty outbox takes what is no larger than itself. -/
theorem enqueue_iff {out : ClientOutput} (hempty : out.pending = []) (hconnected : out.connected = true)
    {frame : Bytes} :
    ((clientEnqueueOutputLocked out frame true).1 = 0 ∧ (clientEnqueueOutputLocked out frame true).2.connected = true) ↔
      frame.length ≤ CLIENT_OUTBOX_CAPACITY := by
  unfold clientEnqueueOutputLocked
  dsimp only
  rw [clientCompactOutbox_allocated, hempty]
  split
  · rename_i hnil
    rw [hnil]
    exact iff_of_true ⟨rfl, hconnected⟩ (Nat.zero_le _)
  · split
    · rename_i hlarge
      exact iff_of_false (fun h => absurd h.1 (show ¬ (-1 : Int) = 0 by decide)) (by omega)
    · rename_i hfits
      rw [if_neg (by simp), if_neg (by simpa using hfits)]
      exact iff_of_true ⟨rfl, hconnected⟩ (Nat.not_lt.1 hfits)

/-- The bytes of a frame decide. -/
theorem frameAccepted_iff (hc : c.title.Proper) {out : ClientOutput} (hempty : out.pending = [])
    (hconnected : out.connected = true) : FrameAccepted localtime c first second out ↔
      screenSize localtime c first second ≤ min (c.bufSize - 1) CLIENT_OUTBOX_CAPACITY := by
  have hsize := @length_screenParts localtime c first second hc
  have hframe : screenFrame localtime c first second =
      (screenParts localtime c first second).flatten.take (c.bufSize - 1) :=
    foldl_bufferAppend_take c.bufSize [] _
  rw [Nat.le_min, ← hsize]
  constructor
  · rintro ⟨hwhole, hcapacity, -, -⟩
    rw [hwhole] at hcapacity
    rw [hframe, List.take_eq_self_iff] at hwhole
    exact ⟨hwhole, hcapacity⟩
  · rintro ⟨hbuffer, hcapacity⟩
    have hwhole : screenFrame localtime c first second = (screenParts localtime c first second).flatten := by
      rw [hframe, List.take_eq_self_iff]
      exact hbuffer
    have hsent := (@enqueue_iff out hempty hconnected (screenFrame localtime c first second)).2 (hwhole ▸ hcapacity)
    exact ⟨hwhole, hwhole ▸ hcapacity, hsent.1, hsent.2⟩

end Sizes

section Days
variable {localtime : Int → LocalTime} {c : ScreenClient} {messages : List Message}

end Days

end Tnt
