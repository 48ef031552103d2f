import Tnt.Grammar
import Tnt.Readers
/-!
# Recovery of the log (`message_log_tool.c`)

`scan_log` writes each record that it accepts as a line of its own. Such a line is
accepted again and is written the same, with one exception: the parser takes a leap
second at the end of the year 9999, and what is written for it has a year of five
digits.
-/
open BaseLib

namespace Tnt

/-- 10000-01-01T00:00:00Z -/
def lateTimestamp : Int := 253402300800

/-- What `tnt --log-recover` is for: it gives one line per record, in order, with nothing else in it, and the same
when it is run on what it gave. -/
def RecoversWhole (now : Int) (file : Bytes) : Prop :=
  ∃ report recovered, scanLog file true now = .ok (report, recovered) ∧
    fileLines recovered = (acceptedRecords now file).map recordText ∧
    report.validRecords = (acceptedRecords now file).length ∧
    ∀ recover, ∃ report', scanLog recovered recover now = .ok (report', if recover then recovered else []) ∧
      report'.invalidRecords = 0 ∧ report'.validRecords = report.validRecords

variable {now : Int} {file line : Bytes} {m : Message}

/-! ## One record -/

/-- The parser takes no later time than the leap second at the end of the year 9999. -/
theorem timestamp_bounds (h : messageLogParseRecord line now = some m) :
    -62167219200 ≤ m.timestamp ∧ m.timestamp ≤ lateTimestamp := by
  obtain ⟨s, tm, -, hp, htime, -, -⟩ := fieldsOk_of_parse h
  rw [← htime]
  exact timegm_bounds (strptime_inRange hp .year) (strptime_inRange hp .month) (strptime_inRange hp .day)
    (strptime_inRange hp .hour) (strptime_inRange hp .minute) (strptime_inRange hp .second)

/-- What is written for an accepted record is accepted as it. -/
theorem reparse (h : messageLogParseRecord line now = some m) :
    messageLogParseRecord (recordText m) now = if m.timestamp = lateTimestamp then none else some m := by
  obtain ⟨hleast, hgreatest⟩ := timestamp_bounds h
  obtain ⟨ts, -, -, -, -, -, hm⟩ := (parseRecord_iff _ _ _).1 h
  split
  · rename_i hlate
    have hrefused : parseRfc3339Utc (messageLogFormatTimestampUtc m.timestamp) = -1 := by
      rw [hlate]
      exact parse_timestamp_late (by decide)
    cases hparse : messageLogParseRecord (recordText m) now with
    | none => rfl
    | some m' =>
      obtain ⟨-, -, -, -, -, -, hm'⟩ := (parseRecord_iff _ _ _).1 hparse
      rw [recordText_eq] at hparse
      exact absurd ((timestamp_of_parse (bar_notMem_timestamp _) hparse).symm.trans hrefused) hm'.timestamp
  · rename_i hother
    have htime : parseRfc3339Utc (messageLogFormatTimestampUtc m.timestamp) = m.timestamp :=
      parse_timestamp_year (gmtime_year_bounds hleast (lt_of_le_of_ne hgreatest hother))
    have hne : messageLogFormatTimestampUtc m.timestamp ≠ [] := fun hnil => by
      rw [hnil] at htime
      exact hm.timestamp htime.symm
    have hlen := formatRecord_of_parse h
    simp only [messageLogFormatRecord, Option.ite_none_right_eq_some] at hlen
    exact (parseRecord_iff _ _ _).2
      ⟨_, recordText_eq m, hlen.1.trans (by decide), hne, bar_notMem_timestamp _, htime, hm⟩

/-! ## The recovered file -/

/-- A line that fits, with no NUL in it. -/
def ShortLine (line : Bytes) : Prop :=
  line.length < MESSAGE_LOG_MAX_LINE ∧ ∃ body, line = body ++ [newline] ∧ newline ∉ body ∧ 0 ∉ body

/-- Such a line is one round of the readers. -/
theorem ShortLine.block (line rest : Bytes) (h : ShortLine line) :
    line ≠ [] ∧ blockLen roundLen (line ++ rest) = line.length := by
  obtain ⟨hlen, body, rfl, hbody, -⟩ := h
  rw [List.length_append, List.length_singleton] at hlen
  have hfgets := fgets_line hbody hlen rest
  refine ⟨by simp, ?_⟩
  rw [List.append_assoc, List.singleton_append, blockLen,
    roundLen_of_fits (by rw [hfgets]; exact lineTooLong_line hlen), hfgets]
  simp

theorem ShortLine.round (h : ShortLine line) : readRound now line = messageLogParseRecord line now := by
  obtain ⟨hlen, body, rfl, hbody, hzero⟩ := h
  rw [List.length_append, List.length_singleton] at hlen
  rw [readRound, fgets_line hbody hlen, lineTooLong_line hlen, cstr_of_notMem (zero_notMem_line hzero)]
  rfl

theorem fileLines_flatten {ls : List Bytes} (h : ∀ line ∈ ls, ShortLine line) : fileLines ls.flatten = ls := by
  induction ls with
  | nil => rfl
  | cons line ls ih =>
    obtain ⟨-, body, rfl, hbody, -⟩ := h _ List.mem_cons_self
    rw [List.flatten_cons, List.append_assoc, List.singleton_append, fileLines, lines_line hbody, ← fileLines,
      ih fun line hline => h line (List.mem_cons_of_mem _ hline)]

theorem shortLine_recordText (h : m ∈ acceptedRecords now file) : ShortLine (recordText m) := by
  obtain ⟨piece, -, hround⟩ := List.mem_filterMap.1 h
  obtain ⟨hu, hc⟩ := newline_notMem_of_round hround
  simp only [readRound, Option.ite_none_left_eq_some] at hround
  have hlen := formatRecord_of_parse hround.2
  simp only [messageLogFormatRecord, Option.ite_none_right_eq_some] at hlen
  exact ⟨hlen.1.trans (by decide), recordText_line hu hc⟩

/-- A round of the readers is a line of the recovered file. -/
theorem cut_recovered (now : Int) (file : Bytes) :
    cut roundLen ((acceptedRecords now file).flatMap recordText) = (acceptedRecords now file).map recordText := by
  rw [List.flatMap_def]
  exact cut_flatten_eq ShortLine.block _ (List.forall_mem_map.2 fun m hm => shortLine_recordText hm)

/-- What the readers make of it. -/
theorem acceptedRecords_recovered (now : Int) (file : Bytes) :
    acceptedRecords now ((acceptedRecords now file).flatMap recordText) =
      (acceptedRecords now file).filter fun m => m.timestamp ≠ lateTimestamp := by
  rw [acceptedRecords, cut_recovered, List.filterMap_map, ← List.filterMap_eq_filter]
  apply List.filterMap_congr
  intro m hm
  have hround := shortLine_recordText hm
  obtain ⟨piece, -, hpiece⟩ := List.mem_filterMap.1 hm
  simp only [readRound, Option.ite_none_left_eq_some] at hpiece
  rw [Function.comp_apply, hround.round, reparse hpiece.2]
  by_cases hlate : m.timestamp = lateTimestamp <;> simp [Option.guard, hlate]

/-- Where the recovered file has as many records as the file, no record is of the leap second. -/
theorem RecoversWhole.timestamp_ne (h : RecoversWhole now file) (hm : m ∈ acceptedRecords now file) :
    m.timestamp ≠ lateTimestamp := by
  obtain ⟨report, recovered, hrun, -, hvalid, hrerun⟩ := h
  obtain ⟨report₁, hrun₁, -, -⟩ := scanLog_eq now file true
  rw [hrun₁, if_pos rfl, Except.ok.injEq, Prod.mk.injEq] at hrun
  obtain ⟨rfl, rfl⟩ := hrun
  obtain ⟨report', hrun', -, hsame⟩ := hrerun true
  obtain ⟨report₂, hrun₂, hvalid₂, -⟩ := scanLog_eq now ((acceptedRecords now file).flatMap recordText) true
  rw [hrun₂, Except.ok.injEq, Prod.mk.injEq] at hrun'
  rw [← hrun'.1, hvalid₂, hvalid, acceptedRecords_recovered] at hsame
  have hmem : m ∈ (acceptedRecords now file).filter fun m => m.timestamp ≠ lateTimestamp := by
    rw [List.filter_eq_self.2 (List.length_filter_eq_length_iff.1 hsame)]
    exact hm
  simpa using (List.mem_filter.1 hmem).2

/-- Recovery gives one line per record and is done with it, if and only if no record is of the leap second at the end of
the year 9999. -/
theorem recovers_whole_iff (now : Int) (file : Bytes) :
    RecoversWhole now file ↔ ∀ m ∈ acceptedRecords now file, m.timestamp ≠ lateTimestamp := by
  constructor
  · exact fun h m hm => h.timestamp_ne hm
  · intro hall
    have hagain := acceptedRecords_recovered now file
    rw [List.filter_eq_self.2 fun m hm => by simpa using hall m hm] at hagain
    obtain ⟨report, hrun, hvalid, -⟩ := scanLog_eq now file true
    refine ⟨report, _, hrun, ?_, hvalid, fun recover => ?_⟩
    · rw [if_pos rfl, List.flatMap_def]
      exact fileLines_flatten (List.forall_mem_map.2 fun m hm => shortLine_recordText hm)
    · obtain ⟨report', hrun', hvalid', hcount⟩ := scanLog_eq now ((acceptedRecords now file).flatMap recordText) recover
      rw [hagain] at hrun' hvalid'
      rw [cut_recovered, List.length_map, hvalid'] at hcount
      exact ⟨report', hrun', by omega, hvalid'.trans hvalid.symm⟩

/-- A record that is accepted in the last hours of the year 9999 is recovered as a line that is not. -/
theorem recovery_late : ¬ RecoversWhole 253402300799 (lit "9999-12-31T23:59:60Z|bob|hello\n") := by
  intro h
  have hrecords : acceptedRecords 253402300799 (lit "9999-12-31T23:59:60Z|bob|hello\n") =
      [⟨lateTimestamp, CBuf.copy _ (lit "bob"), CBuf.copy _ (lit "hello")⟩] := by decide
  exact h.timestamp_ne (hrecords ▸ List.mem_singleton_self _) rfl

end Tnt
