import Tnt.BackwardScan
import Tnt.SystemMessage
/-!
# The commands on the history (`commands.c`)

`:last N` and `:search` take a number of lines or matches from the log, leave out what
the client muted, and write what is left into a buffer. `historyCommands_iff` says when
this is what the log holds for the client: the window was large enough, and so was the
buffer.
-/
open BaseLib

namespace Tnt

def MAX_COMMAND_OUTPUT_LEN : Nat := 8192

/-- `message_visible_for_client` -/
def messageVisibleForClient (muteJoins : Bool) (msg : Message) : Bool := !muteJoins || !systemMessageIsJoinLeave msg

/-- The last `n` of the messages that the client sees. -/
def newestVisible (muteJoins : Bool) (n : Nat) (messages : List Message) : List Message :=
  let visible := messages.filter (messageVisibleForClient muteJoins)
  let start := if visible.length > n then visible.length - n else 0
  visible.drop start

/-- The messages of `:last n`. -/
def lastMessages (dir : LogDir) (muteJoins : Bool) (n : Nat) (now : Int) : List Message :=
  newestVisible muteJoins n (messageLoad dir (if muteJoins then MAX_MESSAGES else n) now)

/-- The messages of `:search`. -/
def searchMessages (dir : LogDir) (muteJoins : Bool) (query : Bytes) (now : Int) : List Message :=
  newestVisible muteJoins 15 (messageSearch dir query (if muteJoins then MAX_MESSAGES else 15) now)

/-! ## The answers -/

/-- `strcasestr`: the rest of `hay` from the first hit on. -/
def strcasestrAt (hay needle : Bytes) : Option Bytes :=
  (strstrAt (needle.map toLower) (hay.map toLower)).map fun rest => hay.drop (hay.length - rest.length)

theorem length_strcasestrAt_le {hay needle hit : Bytes} (h : strcasestrAt hay needle = some hit) :
    hit.length ≤ hay.length := by
  obtain ⟨rest, -, rfl⟩ := Option.map_eq_some_iff.1 h
  exact (List.drop_suffix _ _).length_le

/-- What `append_highlighted` appends, call by call. -/
def highlightParts (needle text : Bytes) : List Bytes :=
  if needle = [] then [text]
  else if text = [] then []
  else
    match _hhit : strcasestrAt text needle with
    | none => [text]
    | some hit =>
      [text.take (text.length - hit.length), lit "\x1b[7;33m", hit.take needle.length, lit "\x1b[0m"] ++
        highlightParts needle (hit.drop needle.length)
termination_by text.length
decreasing_by
  rename_i hneedle htext
  have hpos := List.length_pos_iff.2 hneedle
  have hle := length_strcasestrAt_le _hhit
  have htext := List.length_pos_iff.2 htext
  rw [List.length_drop]
  omega

/-- How a command writes its answer: the number of messages stands between `before` and a space with `after`, and there
is a line for no messages. -/
structure AnswerFormat where
  before : Bytes
  after : Bytes
  empty : Bytes
  row : Message → List Bytes

/-- The calls of `buffer_appendf` and `buffer_append_bytes`, for the messages that are shown. -/
def AnswerFormat.parts (format : AnswerFormat) (shown : List Message) : List Bytes :=
  (format.before ++ decimal shown.length ++ 0x20 :: format.after) ::
    (if shown.length = 0 then [format.empty] else []) ++ shown.flatMap format.row

section Formats
-- `strftime(ts, sizeof(ts), "%m-%d %H:%M", localtime_r(…))`, in the time zone of the server.
variable (clock : Int → Bytes)

def lastFormat (lang : UiLang) : AnswerFormat where
  before :=
    match lang with
    | .en => lit "--- Last "
    | .zh => lit "--- 最近 "
  after :=
    match lang with
    | .en => lit "message(s) ---\n"
    | .zh => lit "条消息 ---\n"
  empty :=
    match lang with
    | .en => lit "No messages to show\n"
    | .zh => lit "没有可显示的消息\n"
  row msg :=
    [lit "[" ++ clock msg.timestamp ++ lit "] " ++ msg.username.bytes ++ lit ": " ++ msg.content.bytes ++ [newline]]

def searchFormat (lang : UiLang) (query : Bytes) : AnswerFormat where
  before :=
    match lang with
    | .en => lit "--- Search: \"" ++ query ++ lit "\" (showing last "
    | .zh => lit "--- 搜索: \"" ++ query ++ lit "\" (显示最近 "
  after :=
    match lang with
    | .en => lit "match(es)) ---\n"
    | .zh => lit "条匹配) ---\n"
  empty :=
    match lang with
    | .en => lit "No matches\n"
    | .zh => lit "没有匹配结果\n"
  row msg :=
    [lit "[" ++ clock msg.timestamp ++ lit "] "] ++ highlightParts query msg.username.bytes ++ [lit ": "] ++
      highlightParts query msg.content.bytes ++ [[newline]]

/-- `output` of a command, and `client->command_output` after it. -/
def commandOutput (parts : List Bytes) : Bytes := parts.foldl (bufferAppend MAX_COMMAND_OUTPUT_LEN) []

/-- What `:last n` shows. -/
def lastOutput (lang : UiLang) (dir : LogDir) (muteJoins : Bool) (n : Nat) (now : Int) : Bytes :=
  commandOutput ((lastFormat clock lang).parts (lastMessages dir muteJoins n now))

/-- What `:search` shows. -/
def searchOutput (lang : UiLang) (dir : LogDir) (muteJoins : Bool) (query : Bytes) (now : Int) : Bytes :=
  commandOutput ((searchFormat clock lang query).parts (searchMessages dir muteJoins query now))

end Formats

/-! ## Answers -/

theorem commandOutput_eq (parts : List Bytes) : commandOutput parts = parts.flatten.take (MAX_COMMAND_OUTPUT_LEN - 1) :=
  foldl_bufferAppend_take MAX_COMMAND_OUTPUT_LEN [] parts

theorem space_notMem_decimal (n : Nat) : 0x20 ∉ decimal n := fun h => absurd (isDigit_of_mem_decimal h) (by decide)

/-- A count that a space follows can be read off a text, and off the beginning of one. -/
theorem count_of_take {pre s t : Bytes} {a b k : Nat}
    (h : (pre ++ decimal a ++ 0x20 :: s).take k = pre ++ decimal b ++ 0x20 :: t) : a = b := by
  obtain ⟨u, hu⟩ := List.take_prefix k (pre ++ decimal a ++ 0x20 :: s)
  rw [h, List.append_assoc, List.append_assoc, List.append_assoc, List.append_cancel_left_eq, List.cons_append] at hu
  have hdigits := (append_byte_inj (space_notMem_decimal b) (space_notMem_decimal a) hu).1
  have hval := congrArg digitsVal hdigits
  rw [digitsVal_decimal, digitsVal_decimal] at hval
  exact hval.symm

variable {format : AnswerFormat}

theorem flatten_parts (format : AnswerFormat) (shown : List Message) :
    ∃ t, (format.parts shown).flatten = format.before ++ decimal shown.length ++ 0x20 :: t := by
  refine ⟨format.after ++ ((if shown.length = 0 then [format.empty] else []) ++ shown.flatMap format.row).flatten, ?_⟩
  rw [AnswerFormat.parts, List.cons_append, List.flatten_cons, List.append_assoc, List.append_assoc, List.append_assoc,
    List.cons_append]

/-- An answer that is written in full tells how many messages it shows. -/
theorem length_of_output {shown target : List Message}
    (h : commandOutput (format.parts shown) = (format.parts target).flatten) : shown.length = target.length := by
  obtain ⟨s, hs⟩ := flatten_parts format shown
  obtain ⟨t, ht⟩ := flatten_parts format target
  rw [commandOutput_eq, hs, ht] at h
  exact count_of_take h

/-- A command that looks at `back` answers for all of `front ++ back`, if and only if it need not look further and the
answer fits its buffer. -/
theorem output_iff {front back : List Message} {n : Nat} (hn : 0 < n) :
    commandOutput (format.parts (back.rtake n)) = (format.parts ((front ++ back).rtake n)).flatten ↔
      (front = [] ∨ n ≤ back.length) ∧
        (format.parts ((front ++ back).rtake n)).flatten.length < MAX_COMMAND_OUTPUT_LEN := by
  constructor
  · intro h
    have hreach := (length_rtake_append_iff hn).1 (length_of_output h)
    refine ⟨hreach, ?_⟩
    rw [← h, commandOutput_eq, List.length_take]
    exact Nat.lt_of_le_of_lt (Nat.min_le_left _ _) (by decide)
  · rintro ⟨hreach, hfits⟩
    rw [commandOutput_eq, ← rtake_append_of hreach, List.take_of_length_le (Nat.le_sub_one_of_lt hfits)]

theorem newestVisible_eq (muteJoins : Bool) (n : Nat) (messages : List Message) :
    newestVisible muteJoins n messages = (messages.filter (messageVisibleForClient muteJoins)).rtake n := by
  unfold newestVisible
  simp only [List.rtake]
  split
  · rfl
  · rw [Nat.sub_eq_zero_of_le (by omega)]

/-! ## The commands -/

/-- What the log holds for a client. -/
def visibleRecords (muteJoins : Bool) (now : Int) (file : Bytes) : List Message :=
  (acceptedRecords now file).filter (messageVisibleForClient muteJoins)

theorem visibleRecords_flatMap (muteJoins : Bool) (now : Int) (ls : List Bytes) :
    (ls.flatMap (acceptedRecords now)).filter (messageVisibleForClient muteJoins) =
      ls.flatMap (visibleRecords muteJoins now) := List.filter_flatMap

/-- How many lines or matches a command loads that is to show `n`. -/
def window (muteJoins : Bool) (n : Nat) : Nat := if muteJoins then MAX_MESSAGES else n

theorem window_pos (muteJoins : Bool) {n : Nat} (hn : 0 < n) : 0 < window muteJoins n := by
  cases muteJoins with
  | true => exact (by decide : 0 < MAX_MESSAGES)
  | false => exact hn

section Commands
variable (clock : Int → Bytes) (lang : UiLang) (dir : LogDir) (muteJoins : Bool) (now : Int)

/-- The answer that shows the last `n` messages of the log. -/
def lastAnswer (n : Nat) : Bytes :=
  ((lastFormat clock lang).parts ((visibleRecords muteJoins now dir.contents).rtake n)).flatten

/-- The answer that shows the last 15 of them that match. -/
def searchAnswer (query : Bytes) : Bytes :=
  ((searchFormat clock lang query).parts
    (((visibleRecords muteJoins now dir.contents).filter (·.contains query)).rtake 15)).flatten

/-- No line in front of those that `:last n` loads has a message for the client, or those that it loads have `n`. -/
def LastInWindow (n : Nat) : Prop :=
  (∀ line ∈ (fileLines dir.contents).rdrop (window muteJoins n), visibleRecords muteJoins now line = []) ∨
    n ≤ (((fileLines dir.contents).rtake (window muteJoins n)).flatMap (visibleRecords muteJoins now)).length

/-- None of the matches in front of those that `:search` loads is for the client, or 15 of those that it loads are. -/
def SearchInWindow (query : Bytes) : Prop :=
  let found := (acceptedRecords now dir.contents).filter (·.contains query)
  (∀ m ∈ found.rdrop (window muteJoins 15), messageVisibleForClient muteJoins m = false) ∨
    15 ≤ ((found.rtake (window muteJoins 15)).filter (messageVisibleForClient muteJoins)).length

theorem lastOutput_iff {n : Nat} (hn : 0 < n) :
    lastOutput clock lang dir muteJoins n now = lastAnswer clock lang dir muteJoins now n ↔
      LastInWindow dir muteJoins now n ∧ (lastAnswer clock lang dir muteJoins now n).length <
        MAX_COMMAND_OUTPUT_LEN := by
  have hsplit : visibleRecords muteJoins now dir.contents =
      ((fileLines dir.contents).rdrop (window muteJoins n)).flatMap (visibleRecords muteJoins now) ++
        ((fileLines dir.contents).rtake (window muteJoins n)).flatMap (visibleRecords muteJoins now) := by
    rw [← List.flatMap_append, List.rdrop, List.rtake, List.take_append_drop, ← visibleRecords_flatMap,
      ← acceptedRecords_flatMap]
    rfl
  have hload := messageLoad_lines dir (window_pos muteJoins hn) now
  rw [lastOutput, lastMessages, ← window, newestVisible_eq, hload, visibleRecords_flatMap, lastAnswer, hsplit,
    output_iff hn,
    List.flatMap_eq_nil_iff]
  rfl

theorem searchOutput_iff {query : Bytes} (hquery : query ≠ []) :
    searchOutput clock lang dir muteJoins query now = searchAnswer clock lang dir muteJoins now query ↔
      SearchInWindow dir muteJoins now query ∧
        (searchAnswer clock lang dir muteJoins now query).length < MAX_COMMAND_OUTPUT_LEN := by
  have hpos : 0 < window muteJoins 15 := window_pos muteJoins (by decide)
  obtain ⟨found, hfound⟩ : ∃ found, found = (acceptedRecords now dir.contents).filter (·.contains query) := ⟨_, rfl⟩
  have hsearch : messageSearch dir query (window muteJoins 15) now = found.rtake (window muteJoins 15) := by
    obtain ⟨log, backup⟩ := dir
    cases log with
    | none => simp [messageSearch, LogDir.contents, List.rtake, hquery, hfound]
    | some file => exact hfound ▸ messageSearch_eq backup hquery hpos
  have hsplit : (visibleRecords muteJoins now dir.contents).filter (·.contains query) =
      (found.rdrop (window muteJoins 15)).filter (messageVisibleForClient muteJoins) ++
        (found.rtake (window muteJoins 15)).filter (messageVisibleForClient muteJoins) := by
    rw [← List.filter_append, List.rdrop, List.rtake, List.take_append_drop, hfound, visibleRecords, List.filter_filter,
      List.filter_filter]
    exact List.filter_congr fun m _ => Bool.and_comm _ _
  rw [searchOutput, searchMessages, ← window, newestVisible_eq, hsearch, searchAnswer, hsplit, output_iff (by decide),
    List.filter_eq_nil_iff, SearchInWindow, ← hfound]
  simp only [Bool.not_eq_true]

/-- Without muting, `:search` loads no more than it shows. -/
theorem searchInWindow_unmuted (query : Bytes) : SearchInWindow dir false now query := by
  simp only [SearchInWindow, window, Bool.false_eq_true, if_false]
  generalize (acceptedRecords now dir.contents).filter (·.contains query) = found
  have hall : (found.rtake 15).filter (messageVisibleForClient false) = found.rtake 15 :=
    List.filter_eq_self.2 fun m _ => rfl
  rw [hall]
  rcases Nat.lt_or_ge found.length 15 with hlen | hlen
  · left
    rw [List.rdrop, Nat.sub_eq_zero_of_le hlen.le]
    simp
  · right
    rw [List.rtake, List.length_drop]
    omega

/-- `:last` and `:search` show what the log holds for the client, if and only if they load enough of it and their answer
fits the buffer. -/
theorem historyCommands_iff :
    (∀ n, 0 < n → (lastOutput clock lang dir muteJoins n now = lastAnswer clock lang dir muteJoins now n ↔
      LastInWindow dir muteJoins now n ∧ (lastAnswer clock lang dir muteJoins now n).length < MAX_COMMAND_OUTPUT_LEN)) ∧
    ∀ query, query ≠ [] →
      (searchOutput clock lang dir muteJoins query now = searchAnswer clock lang dir muteJoins now query ↔
        SearchInWindow dir muteJoins now query ∧
          (searchAnswer clock lang dir muteJoins now query).length < MAX_COMMAND_OUTPUT_LEN) :=
  ⟨fun _ hn => lastOutput_iff clock lang dir muteJoins now hn,
    fun _ hquery => searchOutput_iff clock lang dir muteJoins now hquery⟩

end Commands

/-- A log with the message of ann alone is shown. -/
theorem historyCommands_ann :
    lastOutput (fun _ => lit "07-14 13:33") .en annDir false 1 1752500000 =
      lastAnswer (fun _ => lit "07-14 13:33") .en annDir false 1752500000 1 :=
  ((historyCommands_iff (fun _ => lit "07-14 13:33") .en annDir false 1752500000).1 1 Nat.one_pos).2
    ⟨.inl (by decide), by decide⟩

/-- Behind a line that is no record, it is not. -/
theorem historyCommands_garbled : ¬ ∀ n, 0 < n → n ≤ 50 →
    lastOutput (fun _ => lit "07-14 13:33") .en garbledDir false n 1752500000 =
      lastAnswer (fun _ => lit "07-14 13:33") .en garbledDir false 1752500000 n := by
  intro h
  have hone := h 1 Nat.one_pos (by decide)
  revert hone
  decide

end Tnt
