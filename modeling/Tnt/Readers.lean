import Mathlib.Algebra.Order.BigOperators.Group.List
import Tnt.Durability
import Tnt.Lib.Lines
import Tnt.Lib.Windows
/-!
# The readers of the log (`message.c`, `message_log_tool.c`)

`message_dump_text`, `message_search` and the offline `scan_log` go over the file
in one and the same loop and differ in what they do with a record. The loop takes
pieces of at most 2047 bytes, so that what it accepts need not be a line:
`readers_whole_lines` says for which files it is.
-/
open BaseLib

namespace Tnt

/-- The loop over `fgets`, with what is done with the record of a round or where there is none. -/
def readLoop {σ : Type} (now : Int) (file : Bytes) (f : σ → Option Message → σ) (s : σ) : σ :=
  ((cut roundLen file).map (readRound now)).foldl f s

/-! ## `message_search` -/

/-- `strcasestr(hay, needle) != NULL` -/
def strcasestr (hay needle : Bytes) : Bool := strstr (hay.map toLower) (needle.map toLower)

/-- The username or the content contains the query. -/
def Message.contains (m : Message) (query : Bytes) : Bool :=
  strcasestr m.username.bytes query || strcasestr m.content.bytes query

/-- Of more than `maxResults` matches the oldest is shifted out. -/
def keepResult (maxResults : Nat) (res : List Message) (m : Message) : List Message :=
  if res.length < maxResults then res ++ [m] else (res.drop 1).take (maxResults - 1) ++ [m]

/-- `message_search` -/
def messageSearch (dir : LogDir) (query : Bytes) (maxResults : Nat) (now : Int) : List Message :=
  if query = [] then []
  else
    match dir.log with
    | none => []
    | some file =>
      readLoop now file (fun res round =>
        match round with
        | none => res
        | some m => if m.contains query then keepResult maxResults res m else res) []

/-! ## `message_dump_text` -/

/-- `message_dump_text`, with memory for its output. -/
def messageDumpText (dir : LogDir) (maxRecords : Nat) (now : Int) : Bytes :=
  match dir.log with
  | none => []
  | some file =>
    if maxRecords > 0 then
      let ring := readLoop now file (fun ring round =>
        match round with
        | none => ring
        | some parsed => ring.push parsed) (Ring.fresh maxRecords zeroMessage)
      ring.read.flatMap recordText
    else
      readLoop now file (fun output round =>
        match round with
        | none => output
        | some parsed => output ++ recordText parsed) []

/-! ## `scan_log` -/

/-- `message_log_report_t` -/
structure MessageLogReport where
  recordsSeen : Nat
  validRecords : Nat
  invalidRecords : Nat
  /-- 0 where every line is valid. -/
  firstInvalidLine : Nat
  deriving DecidableEq

/-- `scan_log` between two lines: the report, the number of the line and what went to stdout, or the
error that ended the loop. -/
abbrev ScanState := Except Unit (MessageLogReport × Nat × Bytes)

def scanStep (recover : Bool) (s : ScanState) (round : Option Message) : ScanState := do
  let (report, lineNo, out) ← s
  let lineNo := lineNo + 1
  let report := { report with recordsSeen := report.recordsSeen + 1 }
  match round with
  | some parsed =>
    let report := { report with validRecords := report.validRecords + 1 }
    if recover then
      match messageLogFormatRecord parsed (MAX_USERNAME_LEN + MAX_MESSAGE_LEN + 48) with
      | none => throw ()
      | some record => return (report, lineNo, out ++ record)
    else return (report, lineNo, out)
  | none =>
    return ({ report with
      invalidRecords := report.invalidRecords + 1
      firstInvalidLine := if report.firstInvalidLine = 0 then lineNo else report.firstInvalidLine }, lineNo, out)

/-- `scan_log`, of a file that can be read: the report and the recovered records. -/
def scanLog (file : Bytes) (recover : Bool) (now : Int) : Except Unit (MessageLogReport × Bytes) :=
  (readLoop now file (scanStep recover) (.ok (⟨0, 0, 0, 0⟩, 0, []))).map fun (report, _, out) => (report, out)

/-- The exit status of `scan_log` -/
def MessageLogReport.exitStatus (report : MessageLogReport) : Nat := if report.invalidRecords = 0 then 0 else 1

/-! ## What the readers do with the records -/

variable {now : Int} {file : Bytes}

/-- A loop that skips the rounds without a record goes over the accepted ones. -/
theorem readLoop_records {σ : Type} {f : σ → Option Message → σ} (h : ∀ s, f s none = s) (s : σ) :
    readLoop now file f s = (acceptedRecords now file).foldl (fun s m => f s (some m)) s := by
  unfold readLoop acceptedRecords
  induction cut roundLen file generalizing s with
  | nil => rfl
  | cons c cs ih =>
    rw [List.map_cons, List.foldl_cons, ih, List.filterMap_cons]
    cases readRound now c with
    | none => rw [h]
    | some m => rfl

theorem keepResult_rtake {maxResults : Nat} (hmax : 0 < maxResults) (l : List Message) (m : Message) :
    keepResult maxResults (l.rtake maxResults) m = (l ++ [m]).rtake maxResults := by
  rw [← slide_rtake l m hmax, slide_eq_take m (length_rtake_le l)]
  rfl

theorem messageSearch_eq (backup : Option Bytes) {query : Bytes} (hquery : query ≠ []) {maxResults : Nat}
    (hmax : 0 < maxResults) : messageSearch ⟨some file, backup⟩ query maxResults now =
      ((acceptedRecords now file).filter (·.contains query)).rtake maxResults := by
  have hfold (l res : List Message) :
      l.foldl (fun s m => if m.contains query then keepResult maxResults s m else s) (res.rtake maxResults) =
        (res ++ l.filter (·.contains query)).rtake maxResults := by
    induction l generalizing res with
    | nil => rw [List.foldl_nil, List.filter_nil, List.append_nil]
    | cons m l ih =>
      rw [List.foldl_cons, List.filter_cons]
      split
      · rw [keepResult_rtake hmax, ih, List.append_assoc, List.singleton_append]
      · exact ih res
  simp only [messageSearch, if_neg hquery]
  rw [readLoop_records fun _ => rfl]
  simpa [List.rtake] using hfold (acceptedRecords now file) []

/-- Without a limit all accepted records are exported. -/
theorem messageDumpText_all (dir : LogDir) :
    messageDumpText dir 0 now = (acceptedRecords now dir.contents).flatMap recordText := by
  unfold messageDumpText LogDir.contents
  rcases dir.log with _ | file
  · rfl
  · have hfold (l : List Message) (out : Bytes) :
        l.foldl (fun s m => s ++ recordText m) out = out ++ l.flatMap recordText := by
      induction l generalizing out with
      | nil => rw [List.foldl_nil, List.flatMap_nil, List.append_nil]
      | cons m l ih => rw [List.foldl_cons, ih, List.flatMap_cons, List.append_assoc]
    simp only [Nat.lt_irrefl, gt_iff_lt, if_false]
    rw [readLoop_records fun _ => rfl]
    exact hfold _ []

/-- With a limit, the last of them. -/
theorem messageDumpText_limit (dir : LogDir) {maxRecords : Nat} (hmax : 0 < maxRecords) :
    messageDumpText dir maxRecords now = ((acceptedRecords now dir.contents).rtake maxRecords).flatMap recordText := by
  unfold messageDumpText LogDir.contents
  rcases dir.log with _ | file
  · simp
  · simp only [gt_iff_lt, hmax, if_true]
    rw [readLoop_records fun _ => rfl]
    exact congrArg (List.flatMap recordText) (Ring.read_eq_rtake hmax _)

/-! ## Lines of the file -/

/-- The lines of a file, the last one also where it is not finished. -/
def fileLines (file : Bytes) : List Bytes := lines newline file

/-- The record that the parser finds in a whole line that `fgets` can take and that has no NUL in it. -/
def lineRecord (now : Int) (line : Bytes) : Option Message :=
  if 0 ∈ line ∨ line.length ≥ MESSAGE_LOG_MAX_LINE then none else messageLogParseRecord line now

def lineRecords (now : Int) (file : Bytes) : List Message := (fileLines file).filterMap (lineRecord now)

/-- What `fgets` takes of a line at a time. -/
def pieces (line : Bytes) : List Bytes := cut (fun _ => MESSAGE_LOG_MAX_LINE - 1) line

/-- The last piece of a line, where the readers take all pieces in front of it for lines of their own. -/
def exposedPiece (line : Bytes) : Option Bytes :=
  if (pieces line).dropLast.all pieceHidden then (pieces line).getLast? else none

/-- The record that the readers find at the end of a line. -/
def exposedRecord (now : Int) (line : Bytes) : Option Message :=
  (exposedPiece line).bind fun piece => messageLogParseRecord (cstr piece) now

/-- The line is too long for one piece, and the readers take a record from its last one. -/
def exposes (now : Int) (line : Bytes) : Bool :=
  decide (line.length ≥ MESSAGE_LOG_MAX_LINE) && (exposedRecord now line).isSome

theorem acceptedRecords_flatMap (now : Int) (file : Bytes) :
    acceptedRecords now file = (fileLines file).flatMap (acceptedRecords now) := by
  unfold fileLines
  induction file using @linesInduction _ _ newline with
  | nil => rfl
  | last l hne hm => rw [lines_last hm hne, List.flatMap_singleton]
  | line body rest hbody ih => rw [lines_line hbody, List.flatMap_cons, acceptedRecords_append, ← ih]

/-- What is appended behind a finished line does not change what was read before. -/
theorem acceptedRecords_append_finished (now : Int) {a : Bytes} (ha : a = [] ∨ ∃ body, a = body ++ [newline])
    (b : Bytes) :
    acceptedRecords now (a ++ b) = acceptedRecords now a ++ acceptedRecords now b := by
  rw [acceptedRecords_flatMap, fileLines, lines_append ha, List.flatMap_append, ← fileLines, ← fileLines,
    ← acceptedRecords_flatMap, ← acceptedRecords_flatMap]

/-- The last line of the file is one of its lines, when there is something in it. -/
theorem lastLine_mem (hne : lastLine file ≠ []) : lastLine file ∈ fileLines file := by
  have hlast := lines_last (newline_notMem_lastLine file) hne
  rcases lastLine_cases file with hfile | ⟨a, hfile⟩
  · have hmem : lastLine file ∈ lines newline (lastLine file) := hlast ▸ List.mem_singleton_self _
    rwa [← hfile] at hmem ⊢
  · have hlines : fileLines file = lines newline (a ++ [newline]) ++ [lastLine file] := by
      rw [← hlast, ← lines_append (.inr ⟨a, rfl⟩), List.append_assoc, List.singleton_append, ← hfile]
      rfl
    rw [hlines]
    exact List.mem_append_right _ (List.mem_singleton_self _)

theorem pieces_short {line : Bytes} (hne : line ≠ []) (h : line.length < MESSAGE_LOG_MAX_LINE) :
    pieces line = [line] :=
  cut_of_length_le hne (le_max_of_le_right (Nat.le_sub_one_of_lt h))

theorem pieces_long {line : Bytes} (h : MESSAGE_LOG_MAX_LINE - 1 ≤ line.length) :
    pieces line = line.take (MESSAGE_LOG_MAX_LINE - 1) :: pieces (line.drop (MESSAGE_LOG_MAX_LINE - 1)) := by
  obtain ⟨b, t, rfl⟩ := List.exists_cons_of_ne_nil (List.ne_nil_of_length_pos (lt_of_lt_of_le (by decide) h))
  exact cut_cons b t

/-- Of a finished line the readers take the record in its exposed piece. -/
theorem acceptedRecords_finished (now : Int) {body : Bytes} (h : newline ∉ body) :
    acceptedRecords now (body ++ [newline]) = (exposedRecord now (body ++ [newline])).toList := by
  induction hn : body.length using Nat.strong_induction_on generalizing body with
  | _ n ih =>
    rcases Nat.lt_or_ge (body.length + 1) MESSAGE_LOG_MAX_LINE with hlen | hlen
    · rw [acceptedRecords_line h hlen, exposedRecord, exposedPiece, pieces_short (by simp) (by simpa using hlen)]
      rfl
    · have htake : (body.take (MESSAGE_LOG_MAX_LINE - 1)).length = MESSAGE_LOG_MAX_LINE - 1 := by
        rw [List.length_take]
        omega
      have htnl : newline ∉ body.take (MESSAGE_LOG_MAX_LINE - 1) := fun hm => h (List.mem_of_mem_take hm)
      have hdnl : newline ∉ body.drop (MESSAGE_LOG_MAX_LINE - 1) := fun hm => h (List.mem_of_mem_drop hm)
      have hsplit : body ++ [newline] =
          body.take (MESSAGE_LOG_MAX_LINE - 1) ++ (body.drop (MESSAGE_LOG_MAX_LINE - 1) ++ [newline]) := by
        rw [← List.append_assoc, List.take_append_drop]
      have hpieces : pieces (body ++ [newline]) =
          body.take (MESSAGE_LOG_MAX_LINE - 1) :: pieces (body.drop (MESSAGE_LOG_MAX_LINE - 1) ++ [newline]) := by
        rw [pieces_long (by rw [List.length_append]; omega), List.take_append_of_le_length (by omega),
          List.drop_append_of_le_length (by omega)]
      have hrest : pieces (body.drop (MESSAGE_LOG_MAX_LINE - 1) ++ [newline]) ≠ [] := cut_ne_nil (by simp)
      rw [exposedRecord, exposedPiece, hpieces, List.dropLast_cons_of_ne_nil hrest, List.all_cons,
        List.getLast?_cons_of_ne_nil hrest, hsplit]
      by_cases hz : 0 ∈ body.take (MESSAGE_LOG_MAX_LINE - 1)
      · have hhid : pieceHidden (body.take (MESSAGE_LOG_MAX_LINE - 1)) = true := by
          simp [pieceHidden, htake, hz]
        rw [acceptedRecords_hidden htnl hhid, hhid, Bool.true_and]
        refine ih _ ?_ hdnl rfl
        rw [← hn, List.length_drop]
        simp only [MESSAGE_LOG_MAX_LINE] at hlen ⊢
        omega
      · have hhid : pieceHidden (body.take (MESSAGE_LOG_MAX_LINE - 1)) = false := by
          simp [pieceHidden, hz]
        rw [acceptedRecords_full htnl hz htake hdnl, hhid]
        rfl

theorem exposedPiece_subset {line piece : Bytes} (h : exposedPiece line = some piece) : piece ⊆ line := by
  simp only [exposedPiece, Option.ite_none_right_eq_some] at h
  intro b hb
  have hmem : b ∈ (pieces line).flatten := List.mem_flatten_of_mem (List.mem_of_getLast? h.2) hb
  rwa [pieces, cut_flatten] at hmem

/-- Of any line of the file the readers take one record at most, the exposed one. -/
theorem acceptedRecords_exposed (now : Int) {line : Bytes} (hline : line ∈ fileLines file) :
    acceptedRecords now line = (exposedRecord now line).toList := by
  rcases mem_lines hline with ⟨body, rfl, hbody⟩ | hnl
  · exact acceptedRecords_finished now hbody
  · have hnone : exposedRecord now line = none := by
      rw [exposedRecord, Option.bind_eq_none_iff]
      exact fun piece hpiece =>
        parseRecord_eq_none_of_no_newline (cstr_newline fun hp => hnl (exposedPiece_subset hpiece hp)) now
    rw [acceptedRecords_no_newline hnl, hnone]
    rfl

/-- Of a line that fits, the readers take what the parser finds in the whole of it. -/
theorem acceptedRecords_short {line : Bytes} (hline : line ∈ fileLines file)
    (hlen : line.length < MESSAGE_LOG_MAX_LINE) : acceptedRecords now line = (lineRecord now line).toList := by
  have hlong : ¬ line.length ≥ MESSAGE_LOG_MAX_LINE := Nat.not_le.2 hlen
  rcases mem_lines hline with ⟨body, rfl, hbody⟩ | hnl
  · rw [acceptedRecords_line hbody (by simpa using hlen), lineRecord]
    by_cases hz : 0 ∈ body
    · rw [cstr_append_of_mem hz, parseRecord_eq_none_of_no_newline (cstr_newline hbody),
        if_pos (.inl (List.mem_append_left _ hz))]
    · have hz' := zero_notMem_line hz
      rw [cstr_of_notMem hz', if_neg (by simp only [hz', hlong, or_self, not_false_eq_true])]
  · rw [acceptedRecords_no_newline hnl, lineRecord, parseRecord_eq_none_of_no_newline hnl, ite_self]
    rfl

/-- An accepted record is written in the bytes that it has room for. -/
theorem formatRecord_of_parse {line : Bytes} {m : Message} (h : messageLogParseRecord line now = some m) :
    messageLogFormatRecord m (MAX_USERNAME_LEN + MAX_MESSAGE_LEN + 48) = some (recordText m) := by
  obtain ⟨ts, -, -, -, -, htime, hr⟩ := (parseRecord_iff _ _ _).1 h
  have hlen := length_timestamp_of_parse (htime ▸ hr.timestamp)
  rw [htime] at hlen
  have hu := m.username.fits
  have hc := m.content.fits
  apply if_pos
  simp only [recordText_eq, List.length_append, List.length_cons, List.length_nil, MAX_USERNAME_LEN,
    MAX_MESSAGE_LEN] at hu hc ⊢
  omega

/-- `scan_log` counts a round as valid or as invalid, and writes what it accepts. -/
theorem scanLog_eq (now : Int) (file : Bytes) (recover : Bool) :
    ∃ report, scanLog file recover now =
        .ok (report, if recover then (acceptedRecords now file).flatMap recordText else []) ∧
      report.validRecords = (acceptedRecords now file).length ∧
      report.validRecords + report.invalidRecords = (cut roundLen file).length := by
  have hfold (cs : List Bytes) (report : MessageLogReport) (lineNo : Nat) (out : Bytes) :
      ∃ report' lineNo', ((cs.map (readRound now)).foldl (scanStep recover) (.ok (report, lineNo, out)) : ScanState) =
          .ok (report', lineNo', out ++ if recover then (cs.filterMap (readRound now)).flatMap recordText else []) ∧
        report'.validRecords = report.validRecords + (cs.filterMap (readRound now)).length ∧
        report'.validRecords + report'.invalidRecords = report.validRecords + report.invalidRecords + cs.length := by
    induction cs generalizing report lineNo out with
    | nil => exact ⟨report, lineNo, by simp⟩
    | cons c cs ih =>
      rw [List.map_cons, List.foldl_cons, List.filterMap_cons]
      cases hround : readRound now c with
      | none =>
        obtain ⟨report', lineNo', hrest, hvalid, hcount⟩ := ih
          { report with
            recordsSeen := report.recordsSeen + 1
            invalidRecords := report.invalidRecords + 1
            firstInvalidLine := if report.firstInvalidLine = 0 then lineNo + 1 else report.firstInvalidLine }
          (lineNo + 1) out
        refine ⟨report', lineNo', hrest, hvalid, ?_⟩
        rw [hcount, List.length_cons]
        simp only
        omega
      | some m =>
        simp only [readRound, Option.ite_none_left_eq_some] at hround
        have hstep : scanStep recover (.ok (report, lineNo, out)) (some m) =
            .ok ({ report with recordsSeen := report.recordsSeen + 1, validRecords := report.validRecords + 1 },
              lineNo + 1, out ++ if recover then recordText m else []) := by
          simp only [scanStep, formatRecord_of_parse hround.2]
          cases recover with
          | true => rfl
          | false => simp only [Bool.false_eq_true, if_false, List.append_nil]; rfl
        obtain ⟨report', lineNo', hrest, hvalid, hcount⟩ := ih
          { report with recordsSeen := report.recordsSeen + 1, validRecords := report.validRecords + 1 }
          (lineNo + 1) (out ++ if recover then recordText m else [])
        refine ⟨report', lineNo', ?_, ?_, ?_⟩
        · rw [hstep, hrest, List.flatMap_cons, List.append_assoc]
          cases recover <;> rfl
        · rw [hvalid, List.length_cons, Nat.add_assoc, Nat.add_comm 1]
        · rw [hcount, List.length_cons]
          simp only
          omega
  -- The scan is the fold over the rounds, from nothing seen.
  obtain ⟨report, lineNo, hrun, hvalid, hcount⟩ := hfold (cut roundLen file) ⟨0, 0, 0, 0⟩ 0 []
  refine ⟨report, ?_, ?_, ?_⟩
  · rw [scanLog, readLoop, hrun]
    rfl
  · rw [hvalid, Nat.zero_add]
    rfl
  · rw [hcount]
    simp

/-! ## Whole lines -/

/-- All readers of a file go by these records. -/
structure ReadAs (now : Int) (file : Bytes) (records : List Message) : Prop where
  dump : ∀ backup, messageDumpText ⟨some file, backup⟩ 0 now = records.flatMap recordText
  search : ∀ backup query maxResults, query ≠ [] → 0 < maxResults →
    messageSearch ⟨some file, backup⟩ query maxResults now = (records.filter (·.contains query)).rtake maxResults
  scan : ∃ report, scanLog file true now = .ok (report, records.flatMap recordText) ∧
    report.validRecords = records.length

theorem readAs_acceptedRecords (now : Int) (file : Bytes) : ReadAs now file (acceptedRecords now file) where
  dump backup := messageDumpText_all _
  search backup query maxResults hquery hmax := messageSearch_eq backup hquery hmax
  scan := by
    obtain ⟨report, hrun, hvalid, -⟩ := scanLog_eq now file true
    exact ⟨report, hrun, hvalid⟩

/-- What the readers take of a line is its record, unless it exposes another one. -/
theorem acceptedRecords_line_record (now : Int) {line : Bytes} (hline : line ∈ fileLines file) :
    if exposes now line = true then (lineRecord now line).toList.length < (acceptedRecords now line).length
    else acceptedRecords now line = (lineRecord now line).toList := by
  rcases Nat.lt_or_ge line.length MESSAGE_LOG_MAX_LINE with hlen | hlen
  · have hexp : exposes now line = false := by
      rw [exposes, decide_eq_false (Nat.not_le.2 hlen), Bool.false_and]
    simp only [hexp, Bool.false_eq_true, if_false]
    exact acceptedRecords_short hline hlen
  · have hnone : lineRecord now line = none := if_pos (.inr hlen)
    have hexp : exposes now line = (exposedRecord now line).isSome := by
      rw [exposes, decide_eq_true hlen, Bool.true_and]
    rw [hnone, hexp, acceptedRecords_exposed now hline]
    cases exposedRecord now line <;> simp

/-- Every reader goes by the whole lines of the file, if and only if no line that is too long for
`fgets` ends in a piece that the readers take for a line of its own and that is a record. -/
theorem readers_whole_lines (now : Int) (file : Bytes) :
    ReadAs now file (lineRecords now file) ↔ ∀ line ∈ fileLines file, exposes now line = false := by
  have hread := readAs_acceptedRecords now file
  have hrecords : lineRecords now file = (fileLines file).flatMap fun line => (lineRecord now line).toList :=
    List.filterMap_eq_flatMap_toList _ _
  rw [acceptedRecords_flatMap] at hread
  rw [hrecords]
  constructor
  · intro h
    obtain ⟨report, hrun, hcount⟩ := h.scan
    obtain ⟨report', hrun', hcount'⟩ := hread.scan
    rw [hrun, Except.ok.injEq, Prod.mk.injEq] at hrun'
    rw [← hrun'.1, hcount, List.length_flatMap, List.length_flatMap] at hcount'
    by_contra hexp
    push Not at hexp
    obtain ⟨line, hline, hexp⟩ := hexp
    rw [Bool.ne_false_iff] at hexp
    refine absurd hcount' (ne_of_lt (List.sum_lt_sum _ _ (fun l hl => ?_) ⟨line, hline, ?_⟩))
    · have hl := acceptedRecords_line_record now hl
      split at hl
      · exact hl.le
      · exact (congrArg List.length hl).ge
    · have hl := acceptedRecords_line_record now hline
      rwa [if_pos hexp] at hl
  · intro h
    have hsame : (fileLines file).flatMap (acceptedRecords now) =
        (fileLines file).flatMap fun line => (lineRecord now line).toList := by
      apply List.flatMap_congr
      intro line hline
      have hl := acceptedRecords_line_record now hline
      rwa [h line hline, if_neg Bool.false_ne_true] at hl
    rwa [hsame] at hread

/-- A line of 2079 bytes: a block that a crash left as zeros, and behind it what reads like a record. -/
def zeroedFile : Bytes := List.replicate 2047 0 ++ lit "2025-07-14T13:33:20Z|bob|forged\n"

/-- Its end is exported as a record. -/
theorem readers_fragment : ¬ ReadAs 1752500000 zeroedFile (lineRecords 1752500000 zeroedFile) := by
  intro h
  have hdump := h.dump none
  revert hdump
  decide +kernel

end Tnt
