import Tnt.Order
/-!
# What a save adds to the log, and what a rotation takes away

A saved message becomes one line, whatever its fields hold, and changes no other
record (`save_adds_line`). The save that makes the log too large moves it away with
the record it has just written, and `saves_shown_iff` says that only this hides a
saved message from the readers.
-/
open BaseLib

namespace Tnt

variable {now : Int} {dir dir' : LogDir} {m : Message}

/-- `line` is one line with three fields, short enough for the readers. -/
structure RecordLine (line : Bytes) : Prop where
  finished : ∃ body, line = body ++ [newline] ∧ newline ∉ body
  bars : line.count bar = 2
  short : line.length < MESSAGE_LOG_MAX_LINE

/-- The lines, the records and the bytes that a save adds, whatever the message holds: one line, which
is at most the record of the sanitised message. -/
theorem save_adds_line (dir dir' : LogDir) (m : Message) (env : SaveEnv)
    (hclean : dir.contents = [] ∨ ∃ body, dir.contents = body ++ [newline])
    (hsave : messageSave m env dir = (0, dir')) :
    ∃ line, RecordLine line ∧
      (dir'.log = some (dir.contents ++ line) ∨ dir'.log = none ∧ dir'.backup = some (dir.contents ++ line)) ∧
      fileLines (dir.contents ++ line) = fileLines dir.contents ++ [line] ∧
      ∀ now, acceptedRecords now (dir.contents ++ line) = acceptedRecords now dir.contents ∨
        acceptedRecords now (dir.contents ++ line) = acceptedRecords now dir.contents ++ [safeMsg m] := by
  obtain ⟨hfits, renames, -, rfl⟩ := messageSave_appends hsave
  obtain ⟨body, hbody, hnl, h0⟩ := recordText_safeMsg m
  have hline : fileLines (recordText (safeMsg m)) = [recordText (safeMsg m)] := by
    rw [hbody, fileLines, lines_line hnl, lines_nil]
  have hshort : (recordText (safeMsg m)).length < MESSAGE_LOG_MAX_LINE := hfits.trans (by decide)
  refine ⟨recordText (safeMsg m), ⟨⟨body, hbody, hnl⟩, ?_, hshort⟩, ?_, ?_, fun now => ?_⟩
  · exact count_bar_recordText (safeMsg_username m).1 (safeMsg_content m).1
  · unfold LogDir.append
    dsimp only
    split
    · exact .inr ⟨rfl, rfl⟩
    · exact .inl rfl
  · rw [fileLines, lines_append hclean, ← fileLines, ← fileLines, hline]
  · have hrecords : acceptedRecords now (dir.contents ++ recordText (safeMsg m)) = acceptedRecords now dir.contents ++
        (messageLogParseRecord (recordText (safeMsg m)) now).toList := by
      rw [acceptedRecords_append_finished now hclean,
        acceptedRecords_recordText (safeMsg_username m).2 (safeMsg_content m).2 hshort]
    rw [hrecords]
    cases hparse : messageLogParseRecord (recordText (safeMsg m)) now with
    | none => exact .inl (List.append_nil _)
    | some m' =>
      right
      rw [eq_of_parse_recordText (safeMsg_username m).1 hparse]
      rfl

/-- A message that looks like two more records. -/
def hostile : Message :=
  ⟨1752500000, CBuf.copy _ (lit "eve|hi\n2025-07-14T13:33:20Z|bob"), CBuf.copy _ (lit "forged\r\n||")⟩

theorem save_adds_line_hostile : ∃ line, RecordLine line ∧
    fileLines (annDir.contents ++ line) = fileLines annDir.contents ++ [line] := by
  obtain ⟨line, hline, -, hlines, -⟩ := save_adds_line annDir (messageSave hostile (.written true) annDir).2 hostile
    (.written true) (.inr ⟨annDir.contents.dropLast, by decide⟩) (Prod.ext (by decide) rfl)
  exact ⟨line, hline, hlines⟩

/-! ## Runs of saves -/

/-- A call of `message_save` that returns 0. -/
def saveStep (dir : LogDir) (e : Message × SaveEnv) : Option LogDir :=
  if (messageSave e.1 e.2 dir).1 = 0 then some (messageSave e.1 e.2 dir).2 else none

/-- The record stays in `messages.log`: the file is not too large, or cannot be renamed. -/
def Stays (dir : LogDir) (e : Message × SaveEnv) : Prop :=
  (dir.contents ++ recordText (safeMsg e.1)).length ≤ MAX_LOG_SIZE ∨ e.2 = .written false

instance (dir : LogDir) (e : Message × SaveEnv) : Decidable (Stays dir e) := inferInstanceAs (Decidable (_ ∨ _))

/-- The readers show the last of the saved messages, and as many as are asked for. -/
structure Shown (now : Int) (dir : LogDir) (saved : List Message) : Prop where
  load : ∀ n > 0, (messageLoad dir n now).getLast? = saved.getLast?.map safeMsg ∧
    (n ≤ saved.length → (messageLoad dir n now).length = n)
  dump : ∀ n > 0, ∃ records : List Message, messageDumpText dir n now = records.flatMap recordText ∧
    records.getLast? = saved.getLast?.map safeMsg ∧ (n ≤ saved.length → records.length = n)

/-- A save appends its record where it stays, and leaves no log where it does not. -/
theorem saveStep_log {e : Message × SaveEnv} (h : saveStep dir e = some dir') :
    (Stays dir e → dir'.log = some (dir.contents ++ recordText (safeMsg e.1))) ∧ (¬ Stays dir e → dir'.log = none) := by
  rw [saveStep, Option.ite_none_right_eq_some, Option.some.injEq] at h
  obtain ⟨-, renames, henv, rfl⟩ := messageSave_appends (Prod.ext h.1 h.2)
  have hiff : Stays dir e ↔
      ¬ ((dir.contents ++ recordText (safeMsg e.1)).length > MAX_LOG_SIZE ∧ renames = true) := by
    rw [Stays, henv, SaveEnv.written.injEq, not_and_or, Nat.not_lt, Bool.not_eq_true]
  rw [hiff, not_not]
  exact ⟨fun hs => by rw [LogDir.append]; exact congrArg LogDir.log (if_neg hs),
    fun hs => by rw [LogDir.append]; exact congrArg LogDir.log (if_pos hs)⟩

/-- While all records stay, the log is what it was and the records behind it. -/
theorem contents_of_stays {es : List (Message × SaveEnv)} (hm : Meets saveStep Stays dir es)
    (h : exec saveStep dir es = some dir') : dir'.contents = dir.contents ++ recordsText (es.map (·.1)) := by
  induction es generalizing dir with
  | nil =>
    cases h
    exact (List.append_nil _).symm
  | cons e es ih =>
    obtain ⟨t, ht, hrest⟩ := exec_cons_some h
    rw [ih (hm.2 t ht) hrest, LogDir.contents, (saveStep_log ht).1 hm.1]
    exact List.append_assoc _ _ _

/-- The last of some lines or records, with the last one of all among them. -/
theorem getLast_rtake_concat {α : Type*} (l : List α) (x : α) {n : Nat} (hn : n > 0) :
    ∃ k, (l ++ [x]).rtake n = l.rtake k ++ [x] := by
  obtain ⟨k, rfl⟩ := Nat.exists_eq_succ_of_ne_zero (Nat.ne_of_gt hn)
  exact ⟨k, List.rtake_concat_succ l k x⟩

/-- Behind a finished log the readers find the saved messages, from the last one on. -/
theorem shown_of_contents (hclean : dir.contents = [] ∨ ∃ body, dir.contents = body ++ [newline]) {ms : List Message}
    (hms : ∀ m ∈ ms, Recorded now m) (hne : ms ≠ []) (h : dir'.contents = dir.contents ++ recordsText ms) :
    Shown now dir' ms := by
  obtain ⟨ms, m, rfl⟩ := (List.eq_nil_or_concat ms).resolve_left hne
  rw [List.concat_eq_append] at *
  have hlines : fileLines dir'.contents =
      fileLines dir.contents ++ (ms ++ [m]).map fun m => recordText (safeMsg m) := by
    rw [h, ← fileLines_recordsText]
    exact lines_append hclean _
  have hrecords : acceptedRecords now dir'.contents = acceptedRecords now dir.contents ++ (ms ++ [m]).map safeMsg := by
    rw [h, acceptedRecords_append_finished now hclean, acceptedRecords_recordsText hms]
  have hlast : (ms ++ [m]).getLast?.map safeMsg = some (safeMsg m) := by
    rw [List.getLast?_concat, Option.map_some]
  refine ⟨fun n hn => ?_, fun n hn =>
    ⟨(acceptedRecords now dir'.contents).rtake n, messageDumpText_limit dir' hn, ?_, ?_⟩⟩
  · rw [hlast, messageLoad_lines dir' hn, hlines]
    constructor
    · rw [List.map_append, List.map_singleton, ← List.append_assoc]
      obtain ⟨k, hk⟩ := getLast_rtake_concat
        (fileLines dir.contents ++ ms.map fun m => recordText (safeMsg m)) (recordText (safeMsg m)) hn
      rw [hk, List.flatMap_append, List.flatMap_singleton, acceptedRecords_recorded (hms m (by simp)),
        List.getLast?_concat]
    · intro hle
      -- All of the last lines are saved records.
      have hlen : ((ms ++ [m]).map fun m => recordText (safeMsg m)).length = (ms ++ [m]).length := List.length_map ..
      have hsuffix : (fileLines dir.contents ++ (ms ++ [m]).map fun m => recordText (safeMsg m)).rtake n =
          ((ms ++ [m]).map fun m => recordText (safeMsg m)).rtake n := by
        rw [List.rtake, List.rtake, List.length_append, hlen, Nat.add_sub_assoc hle, List.drop_append,
          List.drop_of_length_le (by omega), List.nil_append, Nat.add_sub_cancel_left]
      have hone : ∀ line ∈ ((ms ++ [m]).map fun m => recordText (safeMsg m)).rtake n,
          (acceptedRecords now line).length = 1 := by
        intro line hline
        obtain ⟨m', hm', rfl⟩ := List.mem_map.1 (List.mem_of_mem_drop hline)
        rw [acceptedRecords_recorded (hms m' hm')]
        rfl
      rw [hsuffix, ((length_flatMap_le fun line hline => (hone line hline).le).2).2 fun line hline h0 => by
        simpa [h0] using hone line hline, List.rtake, List.length_drop, hlen]
      omega
  · rw [hlast, hrecords, List.map_append, List.map_singleton, ← List.append_assoc]
    obtain ⟨k, hk⟩ := getLast_rtake_concat (acceptedRecords now dir.contents ++ ms.map safeMsg) (safeMsg m) hn
    rw [hk, List.getLast?_concat]
  · intro hle
    rw [List.rtake, List.length_drop, hrecords, List.length_append, List.length_map]
    omega

/-- Directly after every save, the readers show the message that was saved and as many as were saved,
if and only if no save makes the log so large that it is moved away. -/
theorem saves_shown_iff (dir dir' : LogDir) (now : Int) (es : List (Message × SaveEnv))
    (hclean : dir.contents = [] ∨ ∃ body, dir.contents = body ++ [newline])
    (hms : ∀ e ∈ es, Recorded now e.1) (hrun : exec saveStep dir es = some dir') :
    (∀ pre e suf, es = pre ++ e :: suf → ∀ d, exec saveStep dir (pre ++ [e]) = some d →
        Shown now d ((pre ++ [e]).map (·.1))) ↔ Meets saveStep Stays dir es := by
  constructor
  · intro h
    apply meets_iff.2
    intro pre e suf hsplit d hd
    by_contra hs
    -- The run goes on with this save, and leaves nothing to read.
    obtain ⟨d', hd'⟩ : ∃ d', saveStep d e = some d' := by
      rw [hsplit, exec_append, hd, Option.bind_some] at hrun
      exact ⟨_, (exec_cons_some hrun).choose_spec.1⟩
    have hshown := (h pre e suf hsplit d' (by simp [exec_append, hd, exec_cons, hd'])).load 1 Nat.one_pos
    have hempty : messageLoad d' 1 now = [] := by
      unfold messageLoad
      rw [(saveStep_log hd').2 hs]
    rw [hempty, List.map_append, List.map_singleton, List.getLast?_concat] at hshown
    cases hshown.1
  · intro hm pre e suf hsplit d hd
    have hes : es = (pre ++ [e]) ++ suf := by rw [hsplit, List.append_assoc, List.singleton_append]
    rw [hes] at hm hms
    refine shown_of_contents hclean (fun m hm' => ?_) (by simp) (contents_of_stays (meets_append.1 hm).1 hd)
    obtain ⟨x, hx, rfl⟩ := List.mem_map.1 hm'
    exact hms x (List.mem_append_left _ hx)

theorem saves_shown_ann : Shown 1752500000 (annDir.append (recordText (safeMsg annHi)) true) [annHi] := by
  have hrun : exec saveStep annDir [(annHi, .written true)] =
      some (annDir.append (recordText (safeMsg annHi)) true) := by
    decide
  exact (saves_shown_iff annDir _ 1752500000 [(annHi, .written true)] (.inr ⟨annDir.contents.dropLast, by decide⟩)
    (by decide) hrun).2 (by decide) [] (annHi, .written true) [] rfl _ hrun

/-! ## A run that ends in a rotation -/

theorem saveStep_written (hm : FourDigitYear m.timestamp) (dir : LogDir) (renames : Bool) :
    saveStep dir (m, .written renames) = some (dir.append (recordText (safeMsg m)) renames) := by
  have hsave := (@messageSave_zero _ hm _ dir _).2 ⟨renames, rfl, rfl⟩
  rw [saveStep, hsave]
  rfl

/-- Saving one message again and again, as long as the log is not too large. -/
theorem exec_replicate (hm : FourDigitYear m.timestamp) (k : Nat)
    (hk : k * (recordText (safeMsg m)).length ≤ MAX_LOG_SIZE) :
    ∃ d, exec saveStep emptyDir (List.replicate k (m, .written true)) = some d ∧
      d.contents.length = k * (recordText (safeMsg m)).length := by
  induction k with
  | zero => exact ⟨emptyDir, rfl, by simp [emptyDir, LogDir.contents]⟩
  | succ k ih =>
    rw [Nat.succ_mul] at hk
    obtain ⟨d, hd, hlen⟩ := ih (by omega)
    refine ⟨d.append (recordText (safeMsg m)) true, ?_, ?_⟩
    · rw [List.replicate_succ', exec_append, hd, Option.bind_some, exec_cons, saveStep_written hm]
      rfl
    · rw [contents_append, if_neg (by rw [List.length_append]; omega), List.length_append, hlen, Nat.succ_mul]

/-- The 374492nd record of 28 bytes makes the log too large. It was saved, and no reader finds it. -/
theorem rotation_hides : ∃ d, exec saveStep emptyDir (List.replicate 374492 (annHi, .written true)) = some d ∧
    messageLoad d 1 1752500000 = [] ∧ messageDumpText d 1 1752500000 = [] ∧
      ¬ Shown 1752500000 d (List.replicate 374492 annHi) := by
  have hlen : (recordText (safeMsg annHi)).length = 28 := by decide
  have hm : FourDigitYear annHi.timestamp := by decide
  obtain ⟨d, hd, hcontents⟩ := exec_replicate hm 374491 (by rw [hlen]; decide)
  have hlog : (d.append (recordText (safeMsg annHi)) true).log = none := by
    rw [LogDir.append]
    refine congrArg LogDir.log (if_pos ⟨?_, rfl⟩)
    rw [List.length_append, hcontents, hlen]
    decide
  have hload : messageLoad (d.append (recordText (safeMsg annHi)) true) 1 1752500000 = [] := by
    unfold messageLoad
    rw [hlog]
  refine ⟨_, ?_, hload, ?_, fun h => ?_⟩
  · rw [show 374492 = 374491 + 1 from rfl, List.replicate_succ', exec_append, hd, Option.bind_some, exec_cons,
      saveStep_written hm]
    rfl
  · unfold messageDumpText
    rw [hlog]
  · have hlast := (h.load 1 Nat.one_pos).1
    rw [hload, show 374492 = 374491 + 1 from rfl, List.replicate_succ', List.getLast?_concat] at hlast
    cases hlast

end Tnt
