import Tnt.MessageLog
import Tnt.Lib.Blocks
/-!
# The message log (`message.c`)

`messageSave` appends one record and rotates the file when it has grown too
large. All readers share one loop over `fgets`, which takes a line in pieces of
at most 2047 bytes and drops the rest of a line whose first piece is full;
`acceptedRecords` is what that loop keeps. It reads line by line:
`acceptedRecords_append` says that what stands behind a newline does not change
what is read in front of it.
-/
open BaseLib

namespace Tnt

/-- `messages.log` and `messages.log.1`, where they exist. -/
structure LogDir where
  log : Option Bytes
  backup : Option Bytes
  deriving DecidableEq

/-- The contents of `messages.log`; a missing file reads like an empty one. -/
def LogDir.contents (dir : LogDir) : Bytes := dir.log.getD []

/-! ## Reading -/

/-- What `fgets(line, sizeof(line), fp)` takes from the rest of the file. -/
def fgets (s : Bytes) : Bytes :=
  s.take (min ((s.takeWhile (· != newline)).length + 1) (MESSAGE_LOG_MAX_LINE - 1))

/-- The check for a line that did not fit: `strlen` stops at a NUL. -/
def lineTooLong (line : Bytes) : Bool :=
  let lineLen := (cstr line).length
  decide (lineLen ≥ MESSAGE_LOG_MAX_LINE - 1) && byteAt line (lineLen - 1) != newline

/-- `discard_line_remainder`: what is left of the file behind it. -/
def discardLineRemainder (s : Bytes) : Bytes := (s.dropWhile (· != newline)).tail

/-- How far one round of the read loop moves in the file. -/
def roundLen (s : Bytes) : Nat :=
  let line := fgets s
  if lineTooLong line then s.length - (discardLineRemainder (s.drop line.length)).length else line.length

/-- The record that one round of the read loop keeps. -/
def readRound (now : Int) (s : Bytes) : Option Message :=
  let line := fgets s
  if lineTooLong line then none else messageLogParseRecord (cstr line) now

/-- The records that `message_dump_text` (without a limit) and `message_search`
(before it compares) take from a file, and `message_load` from where it starts. -/
def acceptedRecords (now : Int) (file : Bytes) : List Message := (cut roundLen file).filterMap (readRound now)

def CHUNK_SIZE : Nat := 4096

/-- The scan of one chunk, for the bytes in front of `i`: the index of the newline that makes
`maxMessages`, or how many were found so far. -/
def scanChunk (maxMessages : Nat) (chunk : Bytes) : Nat → Nat → Nat ⊕ Nat
  | 0, newlinesFound => .inr newlinesFound
  | i + 1, newlinesFound =>
    if byteAt chunk i = newline then
      if newlinesFound + 1 ≥ maxMessages then .inl i else scanChunk maxMessages chunk i (newlinesFound + 1)
    else scanChunk maxMessages chunk i newlinesFound

/-- The loop over the chunks, with `pos + 1` bytes left to scan. Every round reads at least
one of them. -/
def scanBack (maxMessages : Nat) (file : Bytes) : Nat → Nat → Nat → Nat
  | 0, _, _ => 0
  | rounds + 1, left, newlinesFound =>
    if left = 0 ∨ newlinesFound ≥ maxMessages then 0
    else
      let readSize := if left > CHUNK_SIZE then CHUNK_SIZE else left
      let readPos := left - readSize
      match scanChunk maxMessages ((file.drop readPos).take readSize) readSize newlinesFound with
      | .inl i => readPos + i + 1
      | .inr newlinesFound => scanBack maxMessages file rounds readPos newlinesFound

/-- Where `message_load` starts to read. -/
def loadStart (maxMessages : Nat) (file : Bytes) : Nat :=
  let left := if byteAt file (file.length - 1) = newline then file.length - 1 else file.length
  scanBack maxMessages file left left 0

/-- `message_load` -/
def messageLoad (dir : LogDir) (maxMessages : Nat) (now : Int) : List Message :=
  match dir.log with
  | none => []
  | some file =>
    if file.length = 0 then []
    else (acceptedRecords now (file.drop (loadStart maxMessages file))).take maxMessages

/-! ## Writing -/

def sanitizeUsername (b : UInt8) : UInt8 := if b = bar ∨ b = newline ∨ b = 0x0D then 0x5F else b

def sanitizeContent (b : UInt8) : UInt8 := if b = bar ∨ b = newline ∨ b = 0x0D then 0x20 else b

theorem sanitizeUsername_zero (b : UInt8) (h : sanitizeUsername b = 0) : b = 0 := by
  unfold sanitizeUsername at h
  split at h
  · exact absurd h (by decide)
  · exact h

theorem sanitizeContent_zero (b : UInt8) (h : sanitizeContent b = 0) : b = 0 := by
  unfold sanitizeContent at h
  split at h
  · exact absurd h (by decide)
  · exact h

/-- `safe_msg` of `message_save` -/
def safeMsg (msg : Message) : Message where
  timestamp := msg.timestamp
  username := msg.username.map sanitizeUsername sanitizeUsername_zero
  content := msg.content.map sanitizeContent sanitizeContent_zero

/-- How the calls that `message_save` makes turn out. -/
inductive SaveEnv
  /-- There is no path to the log. -/
  | noPath
  /-- `fopen` fails. -/
  | noOpen
  /-- `fwrite` or `fflush` fails with `n` bytes written. -/
  | short (n : Nat) (renames : Bool)
  /-- The record is written; a `rename` succeeds or not. -/
  | written (renames : Bool)
  deriving DecidableEq

/-- Append to `messages.log`, and move it away if that makes it too large. -/
def LogDir.append (dir : LogDir) (bytes : Bytes) (renames : Bool) : LogDir :=
  let file := dir.contents ++ bytes
  if file.length > MAX_LOG_SIZE ∧ renames = true then ⟨none, some file⟩ else { dir with log := some file }

/-- `message_save` -/
def messageSave (msg : Message) (env : SaveEnv) (dir : LogDir) : Int × LogDir :=
  match env with
  | .noPath => (-1, dir)
  | .noOpen => (-1, dir)
  | .short n renames =>
    match messageLogFormatRecord (safeMsg msg) (MAX_USERNAME_LEN + MAX_MESSAGE_LEN + 48) with
    | none => (-1, dir.append [] renames)
    | some record => (-1, dir.append (record.take n) renames)
  | .written renames =>
    match messageLogFormatRecord (safeMsg msg) (MAX_USERNAME_LEN + MAX_MESSAGE_LEN + 48) with
    | none => (-1, dir.append [] renames)
    | some record => (0, dir.append record renames)

/-! ## What is written -/

theorem sanitizeUsername_ascii : AsciiMap sanitizeUsername where
  high := forall_byte (by decide +kernel)
  low := forall_byte (by decide +kernel)
  zero := forall_byte (by decide +kernel)

theorem sanitizeContent_ascii : AsciiMap sanitizeContent where
  high := forall_byte (by decide +kernel)
  low := forall_byte (by decide +kernel)
  zero := forall_byte (by decide +kernel)

/-- No separator is left in a sanitised field. -/
theorem sanitizeUsername_ne (b : UInt8) : sanitizeUsername b ≠ bar ∧ sanitizeUsername b ≠ newline := by
  revert b
  exact forall_byte (by decide +kernel)

theorem sanitizeContent_ne (b : UInt8) : sanitizeContent b ≠ bar ∧ sanitizeContent b ≠ newline := by
  revert b
  exact forall_byte (by decide +kernel)

theorem safeMsg_username (m : Message) :
    bar ∉ (safeMsg m).username.bytes ∧ newline ∉ (safeMsg m).username.bytes := by
  constructor <;> intro h <;> obtain ⟨b, -, hb⟩ := List.mem_map.1 h
  · exact (sanitizeUsername_ne b).1 hb
  · exact (sanitizeUsername_ne b).2 hb

theorem safeMsg_content (m : Message) :
    bar ∉ (safeMsg m).content.bytes ∧ newline ∉ (safeMsg m).content.bytes := by
  constructor <;> intro h <;> obtain ⟨b, -, hb⟩ := List.mem_map.1 h
  · exact (sanitizeContent_ne b).1 hb
  · exact (sanitizeContent_ne b).2 hb

/-- A sanitised message can be replayed when its fields are text and its time is in the window. -/
theorem replayable_safeMsg {m : Message} {now : Int} :
    Replayable now (safeMsg m) ↔
      m.username.bytes ≠ [] ∧ m.content.bytes ≠ [] ∧ utf8IsValidString m.username.bytes = true ∧
        utf8IsValidString m.content.bytes = true ∧ m.timestamp ≠ -1 ∧ InWindow now m.timestamp := by
  have hu : utf8IsValidString (safeMsg m).username.bytes = utf8IsValidString m.username.bytes :=
    valid_map sanitizeUsername_ascii _
  have hc : utf8IsValidString (safeMsg m).content.bytes = utf8IsValidString m.content.bytes :=
    valid_map sanitizeContent_ascii _
  constructor
  · intro h
    exact ⟨fun h0 => h.username_ne (List.map_eq_nil_iff.2 h0), fun h0 => h.content_ne (List.map_eq_nil_iff.2 h0),
      hu ▸ h.username_valid, hc ▸ h.content_valid, h.timestamp, h.window⟩
  · rintro ⟨h1, h2, h3, h4, h5, h6⟩
    exact ⟨fun h0 => h1 (List.map_eq_nil_iff.1 h0), fun h0 => h2 (List.map_eq_nil_iff.1 h0), (safeMsg_username m).1,
      (safeMsg_content m).1, hu.trans h3, hc.trans h4, h5, h6⟩

/-- A record is one line, if there is no newline in its fields. -/
theorem recordText_line {m : Message} (hu : newline ∉ m.username.bytes) (hc : newline ∉ m.content.bytes) :
    ∃ body, recordText m = body ++ [newline] ∧ newline ∉ body ∧ 0 ∉ body := by
  have hts {b : UInt8} (hb : b < 0x2D) : b ∉ messageLogFormatTimestampUtc m.timestamp := fun hm =>
    absurd (UInt8.lt_of_lt_of_le hb (mem_timestamp hm).1) (UInt8.lt_irrefl b)
  refine ⟨_, by rw [recordText], ?_, ?_⟩
  · simp only [List.mem_append, List.mem_cons, not_or]
    exact ⟨⟨hts (by decide), by decide, hu⟩, by decide, hc⟩
  · simp only [List.mem_append, List.mem_cons, not_or]
    exact ⟨⟨hts (by decide), by decide, m.username.nul_free⟩, by decide, m.content.nul_free⟩

theorem recordText_safeMsg (m : Message) :
    ∃ body, recordText (safeMsg m) = body ++ [newline] ∧ newline ∉ body ∧ 0 ∉ body :=
  recordText_line (safeMsg_username m).2 (safeMsg_content m).2

/-- Every message fits the record buffer. -/
theorem formatRecord_safeMsg {m : Message} (h : FourDigitYear m.timestamp) :
    messageLogFormatRecord (safeMsg m) (MAX_USERNAME_LEN + MAX_MESSAGE_LEN + 48) = some (recordText (safeMsg m)) := by
  have := length_recordText_le (m := safeMsg m) h
  exact if_pos (by simp only [MAX_USERNAME_LEN, MAX_MESSAGE_LEN]; omega)

/-- Where `message_save` returns 0, the record fitted its buffer and was appended. -/
theorem messageSave_appends {m : Message} {env : SaveEnv} {dir dir' : LogDir} (h : messageSave m env dir = (0, dir')) :
    (recordText (safeMsg m)).length < MAX_USERNAME_LEN + MAX_MESSAGE_LEN + 48 ∧
      ∃ renames, env = .written renames ∧ dir' = dir.append (recordText (safeMsg m)) renames := by
  unfold messageSave messageLogFormatRecord at h
  split at h
  · cases h
  · cases h
  · split at h <;> cases h
  · rename_i renames
    split at h
    · cases h
    · rename_i record hrecord
      cases h
      rw [Option.ite_none_right_eq_some, Option.some.injEq] at hrecord
      exact ⟨hrecord.1, renames, rfl, by rw [hrecord.2]⟩

/-- It returns 0 for every message of a four-digit year that can be written. -/
theorem messageSave_zero {m : Message} (h : FourDigitYear m.timestamp) {env : SaveEnv} {dir dir' : LogDir} :
    messageSave m env dir = (0, dir') ↔
      ∃ renames, env = .written renames ∧ dir' = dir.append (recordText (safeMsg m)) renames := by
  refine ⟨fun hs => (messageSave_appends hs).2, ?_⟩
  rintro ⟨renames, henv, rfl⟩
  unfold messageSave
  rw [formatRecord_safeMsg h, henv]

/-! ## Reading goes line by line -/

theorem takeWhile_line {body : Bytes} (h : newline ∉ body) (rest : Bytes) :
    (body ++ newline :: rest).takeWhile (· != newline) = body := by
  rw [List.takeWhile_append_of_pos fun b hb => bne_iff_ne.2 (ne_of_mem_of_not_mem hb h)]
  simp

/-- A line that fits is read in full. -/
theorem fgets_line {body : Bytes} (h : newline ∉ body) (hlen : body.length + 1 < MESSAGE_LOG_MAX_LINE) (rest : Bytes) :
    fgets (body ++ newline :: rest) = body ++ [newline] := by
  rw [fgets, takeWhile_line h, Nat.min_eq_left (by omega), List.take_append, List.take_of_length_le (by omega)]
  simp

/-- Of a longer one, and of a last line without newline, `fgets` reads what fits. -/
theorem fgets_piece {s : Bytes} (h : newline ∉ s) (rest : Bytes)
    (hlen : MESSAGE_LOG_MAX_LINE - 1 ≤ s.length ∨ rest = []) :
    fgets (s ++ rest) = s.take (MESSAGE_LOG_MAX_LINE - 1) := by
  have hle : s.length ≤ ((s ++ rest).takeWhile (· != newline)).length := by
    rw [List.takeWhile_append_of_pos fun b hb => bne_iff_ne.2 (ne_of_mem_of_not_mem hb h), List.length_append]
    omega
  rcases hlen with hlen | rfl
  · rw [fgets, Nat.min_eq_right (by omega), List.take_append_of_le_length hlen]
  · rw [List.append_nil] at hle ⊢
    rw [fgets, ← List.take_take, List.take_of_length_le (by rw [List.length_take]; omega)]

theorem zero_notMem_line {body : Bytes} (h : 0 ∉ body) : 0 ∉ body ++ [newline] := by
  simpa using ⟨h, show ¬ (0 : UInt8) = newline by decide⟩

theorem roundLen_of_fits {s : Bytes} (h : lineTooLong (fgets s) = false) : roundLen s = (fgets s).length := by
  simp [roundLen, h]

theorem isPrefix_fgets (s : Bytes) : fgets s <+: s := List.take_prefix _ _

/-- A line that `fgets` reads has at most the newline at its end. -/
theorem count_newline_fgets (s : Bytes) : (fgets s).count newline ≤ 1 := by
  obtain ⟨line, rest, hs, hline, hlen⟩ : ∃ line rest, s = line ++ rest ∧ newline ∉ line ∧
      (s.takeWhile (· != newline)).length = line.length :=
    ⟨_, _, List.takeWhile_append_dropWhile.symm, fun hm => by simpa using List.mem_takeWhile_imp hm, rfl⟩
  have hpre : fgets s <+: line ++ rest.take 1 := by
    have htake : s.take (line.length + 1) = line ++ rest.take 1 := by
      rw [hs, List.take_length_add_append]
    rw [← htake, fgets, hlen]
    exact List.take_prefix_take_left (Nat.min_le_left _ _)
  apply (hpre.sublist.count_le newline).trans
  rw [List.count_append, List.count_eq_zero.2 hline, Nat.zero_add]
  exact List.count_le_length.trans (List.length_take_le _ _)

/-- There is no newline in the fields of a record that was read. -/
theorem newline_notMem_of_round {now : Int} {s : Bytes} {m : Message} (h : readRound now s = some m) :
    newline ∉ m.username.bytes ∧ newline ∉ m.content.bytes := by
  simp only [readRound, Option.ite_none_left_eq_some] at h
  obtain ⟨ts, hline, -⟩ := (parseRecord_iff _ _ _).1 h.2
  have hcount := ((isPrefix_cstr (fgets s)).sublist.count_le newline).trans (count_newline_fgets s)
  rw [hline] at hcount
  simp only [List.count_append, List.count_cons, List.count_nil, beq_self_eq_true, if_true] at hcount
  exact ⟨List.count_eq_zero.1 (by omega), List.count_eq_zero.1 (by omega)⟩

theorem roundLen_le (s : Bytes) : roundLen s ≤ s.length := by
  have := (isPrefix_fgets s).length_le
  simp only [roundLen]
  split <;> omega

theorem fgets_length_le (s : Bytes) : (fgets s).length ≤ roundLen s := by
  have hpre := (isPrefix_fgets s).length_le
  have hd : (discardLineRemainder (s.drop (fgets s).length)).length ≤ s.length - (fgets s).length := by
    have htail := (List.tail_suffix ((s.drop (fgets s).length).dropWhile (· != newline))).length_le
    have hdrop := (List.dropWhile_suffix (l := s.drop (fgets s).length) (· != newline)).length_le
    rw [List.length_drop] at hdrop
    exact htail.trans hdrop
  simp only [roundLen]
  split <;> omega

theorem takeWhile_take (p : UInt8 → Bool) (n : Nat) (s : Bytes) :
    (s.take n).takeWhile p = (s.takeWhile p).take n := by
  induction s generalizing n with
  | nil => simp
  | cons b s ih =>
    cases n with
    | zero => simp
    | succ n =>
      by_cases hb : p b = true
      · simp [hb, ih]
      · simp [hb]

/-- What a round reads does not depend on what is behind it. -/
theorem fgets_take_roundLen (s : Bytes) : fgets (s.take (roundLen s)) = fgets s := by
  have hle := fgets_length_le s
  have htw := (List.takeWhile_prefix (l := s) (· != newline)).length_le
  simp only [fgets, List.length_take] at hle
  simp only [fgets, takeWhile_take, List.take_take, List.length_take]
  rw [List.take_eq_take_iff]
  omega

theorem readRound_take (now : Int) (s : Bytes) : readRound now (s.take (roundLen s)) = readRound now s := by
  simp only [readRound, fgets_take_roundLen]

theorem fgets_ne_nil {s : Bytes} (h : s ≠ []) : fgets s ≠ [] := by
  have := List.length_pos_iff.2 h
  apply List.ne_nil_of_length_pos
  simp only [fgets, List.length_take, MESSAGE_LOG_MAX_LINE]
  omega

theorem roundLen_pos {s : Bytes} (h : s ≠ []) : 0 < roundLen s :=
  (List.length_pos_iff.2 (fgets_ne_nil h)).trans_le (fgets_length_le s)

@[simp] theorem acceptedRecords_nil (now : Int) : acceptedRecords now [] = [] := rfl

/-- One round of the read loop and the rounds behind it. -/
theorem acceptedRecords_round (now : Int) {s : Bytes} (h : s ≠ []) :
    acceptedRecords now s = (readRound now s).toList ++ acceptedRecords now (s.drop (roundLen s)) := by
  have hlen : blockLen roundLen s = roundLen s := Nat.max_eq_right (roundLen_pos h)
  obtain ⟨b, t, rfl⟩ := List.exists_cons_of_ne_nil h
  rw [acceptedRecords, cut_cons, hlen, List.filterMap_cons, readRound_take]
  cases readRound now (b :: t) <;> rfl

theorem discardLineRemainder_line {body : Bytes} (h : newline ∉ body) (rest : Bytes) :
    discardLineRemainder (body ++ newline :: rest) = rest := by
  rw [discardLineRemainder, List.dropWhile_append_of_pos fun b hb => bne_iff_ne.2 (ne_of_mem_of_not_mem hb h)]
  simp

/-- A line that fits, with its newline, is never dropped. -/
theorem lineTooLong_line {body : Bytes} (hlen : body.length + 1 < MESSAGE_LOG_MAX_LINE) :
    lineTooLong (body ++ [newline]) = false := by
  by_cases h0 : 0 ∈ body
  · have hlt := length_cstr_lt h0
    simp only [lineTooLong, cstr_append_of_mem h0]
    rw [decide_eq_false (by omega), Bool.false_and]
  · have hc : cstr (body ++ [newline]) = body ++ [newline] := cstr_of_notMem (zero_notMem_line h0)
    simp [lineTooLong, hc, byteAt, List.getD_eq_getElem?_getD]

/-- A round that starts in a line with a newline at its end stays in that line. -/
theorem roundLen_line {body : Bytes} (h : newline ∉ body) (rest : Bytes) :
    roundLen (body ++ newline :: rest) = roundLen (body ++ [newline]) ∧
      roundLen (body ++ [newline]) ≤ body.length + 1 := by
  refine ⟨?_, (roundLen_le _).trans (by simp)⟩
  rcases Nat.lt_or_ge (body.length + 1) MESSAGE_LOG_MAX_LINE with hlen | hlen
  · rw [roundLen_of_fits, roundLen_of_fits, fgets_line h hlen, fgets_line h hlen]
    all_goals rw [fgets_line h hlen, lineTooLong_line hlen]
  · have hpiece (rest : Bytes) : fgets (body ++ newline :: rest) = body.take (MESSAGE_LOG_MAX_LINE - 1) :=
      fgets_piece h _ (.inl (by omega))
    have hnl : newline ∉ body.drop (MESSAGE_LOG_MAX_LINE - 1) := fun hm => h (List.mem_of_mem_drop hm)
    have hdiscard (rest : Bytes) :
        discardLineRemainder ((body ++ newline :: rest).drop (MESSAGE_LOG_MAX_LINE - 1)) = rest := by
      rw [List.drop_append_of_le_length (by omega), discardLineRemainder_line hnl]
    have htake : (body.take (MESSAGE_LOG_MAX_LINE - 1)).length = MESSAGE_LOG_MAX_LINE - 1 := by
      rw [List.length_take]
      omega
    simp only [roundLen, hpiece, htake, hdiscard, List.length_append, List.length_cons, List.length_nil]
    split <;> omega

/-- The rounds in front of a newline are the same whatever stands behind it. -/
theorem acceptedRecords_append (now : Int) (a b : Bytes) :
    acceptedRecords now (a ++ newline :: b) = acceptedRecords now (a ++ [newline]) ++ acceptedRecords now b := by
  have hcut : cut roundLen ((a ++ [newline]) ++ b) = cut roundLen (a ++ [newline]) ++ cut roundLen b := by
    apply cut_append
    intro s hs hsuf
    have hm : newline ∈ s := by
      obtain ⟨t, ht⟩ := hsuf
      have hlast : s.getLast hs = newline := by
        have := List.getLast_append_of_right_ne_nil t s hs
        simp only [ht, List.getLast_append_singleton] at this
        exact this.symm
      exact hlast ▸ List.getLast_mem hs
    obtain ⟨body, rest, rfl, hbody⟩ := List.eq_append_cons_of_mem hm
    have hround : roundLen ((body ++ newline :: rest) ++ b) = roundLen (body ++ newline :: rest) := by
      rw [List.append_assoc, List.cons_append, (roundLen_line hbody (rest ++ b)).1, (roundLen_line hbody rest).1]
    refine ⟨by rw [blockLen, blockLen, hround], ?_⟩
    have := roundLen_le (body ++ newline :: rest)
    have hpos := List.length_pos_iff.2 hs
    rw [blockLen]
    omega
  rw [acceptedRecords, ← List.singleton_append, ← List.append_assoc, hcut, List.filterMap_append]
  rfl

theorem cstr_newline {s : Bytes} (h : newline ∉ s) : newline ∉ cstr s := fun hm => h ((isPrefix_cstr s).subset hm)

/-- Nothing is read from a last line without newline. -/
theorem acceptedRecords_no_newline {s : Bytes} (h : newline ∉ s) (now : Int) : acceptedRecords now s = [] := by
  apply List.filterMap_eq_nil_iff.2
  intro c hc
  have hc' : newline ∉ fgets c := fun hm =>
    h (@cut_flatten _ roundLen s ▸ List.mem_flatten.2 ⟨c, hc, (isPrefix_fgets c).subset hm⟩)
  simp only [readRound, parseRecord_eq_none_of_no_newline (cstr_newline hc'), ite_self]

/-- A line that fits is read in one round, up to its first NUL. -/
theorem acceptedRecords_line {body : Bytes} (h : newline ∉ body) (hlen : body.length + 1 < MESSAGE_LOG_MAX_LINE)
    (now : Int) :
    acceptedRecords now (body ++ [newline]) = (messageLogParseRecord (cstr (body ++ [newline])) now).toList := by
  have hf := fgets_line h hlen []
  have hlong := lineTooLong_line hlen
  have hround : roundLen (body ++ [newline]) = (body ++ [newline]).length := by
    rw [roundLen_of_fits (by rw [hf]; exact hlong), hf]
  rw [acceptedRecords_round now (by simp), hround, List.drop_length, acceptedRecords_nil, List.append_nil]
  simp [readRound, hf, hlong]

/-! ## The last line -/

/-- The bytes behind the last newline. -/
def lastLine (file : Bytes) : Bytes := (file.reverse.takeWhile (· != newline)).reverse

theorem newline_notMem_lastLine (file : Bytes) : newline ∉ lastLine file := by
  intro h
  simpa using List.mem_takeWhile_imp (List.mem_reverse.1 h)

/-- In front of the last line is nothing, or a newline. -/
theorem lastLine_cases (file : Bytes) :
    file = lastLine file ∨ ∃ a, file = a ++ newline :: lastLine file := by
  have hsplit := List.takeWhile_append_dropWhile (p := (· != newline)) (l := file.reverse)
  rcases hd : file.reverse.dropWhile (· != newline) with _ | ⟨b, a⟩
  · left
    rw [hd, List.append_nil] at hsplit
    rw [lastLine, hsplit, List.reverse_reverse]
  · right
    have hb : b = newline := by
      have := List.head_dropWhile_not (· != newline) (l := file.reverse) (by rw [hd]; simp)
      simpa [hd] using this
    refine ⟨a.reverse, ?_⟩
    rw [hd, hb] at hsplit
    have := congrArg List.reverse hsplit
    simp only [List.reverse_append, List.reverse_cons, List.reverse_reverse, List.append_assoc,
      List.singleton_append] at this
    exact this.symm

/-- What is appended is read behind the last line, and does not touch what was read before. -/
theorem acceptedRecords_lastLine (now : Int) (file b : Bytes) :
    acceptedRecords now (file ++ b) = acceptedRecords now file ++ acceptedRecords now (lastLine file ++ b) := by
  have hlast := acceptedRecords_no_newline (newline_notMem_lastLine file) now
  rcases lastLine_cases file with h | ⟨a, h⟩
  · rw [← h] at hlast ⊢
    rw [hlast, List.nil_append]
  · have hold : acceptedRecords now file = acceptedRecords now (a ++ [newline]) := by
      calc acceptedRecords now file
        _ = acceptedRecords now (a ++ newline :: lastLine file) := congrArg _ h
        _ = _ := by rw [acceptedRecords_append, hlast, List.append_nil]
    calc acceptedRecords now (file ++ b)
      _ = acceptedRecords now (a ++ newline :: (lastLine file ++ b)) := by
        rw [← List.cons_append, ← List.append_assoc, ← h]
      _ = _ := by rw [acceptedRecords_append, hold]

end Tnt
