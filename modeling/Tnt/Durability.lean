import Tnt.Message
/-!
# What an acknowledged message leaves in the log

`messageSave` appends to the file as it finds it. A record behind a last line
without newline becomes the end of that line, and `acceptedRecords_tail` says
when the readers still see it: only when they had already left that line, which
takes a NUL in each full piece that `fgets` reads of it.
-/
open BaseLib

namespace Tnt

/-- A piece of a line that `fgets` reads whole and that the check for long lines does not see
to be full, because `strlen` stops at a NUL. -/
def pieceHidden (piece : Bytes) : Bool := piece.length == MESSAGE_LOG_MAX_LINE - 1 && piece.contains 0

/-- The readers stop exactly at the end of the file: its last line is empty, or made of
hidden pieces. -/
def endsCleanly (file : Bytes) : Bool :=
  (cut (fun _ => MESSAGE_LOG_MAX_LINE - 1) (lastLine file)).all pieceHidden

/-- In a file without NUL only a finished line is a clean end. -/
theorem endsCleanly_iff_of_nul_free {file : Bytes} (h : 0 ∉ file) : endsCleanly file = true ↔ lastLine file = [] := by
  refine ⟨fun hc => ?_, fun hl => by simp [endsCleanly, hl]⟩
  by_contra hne
  obtain ⟨b, t, hbt⟩ := List.exists_cons_of_ne_nil hne
  have hmem : 0 ∈ lastLine file := by
    rw [endsCleanly, hbt, cut_cons, List.all_cons, Bool.and_eq_true, pieceHidden, Bool.and_eq_true,
      List.contains_iff_mem] at hc
    rw [hbt]
    exact List.mem_of_mem_take hc.1.2
  rcases lastLine_cases file with hf | ⟨a, hf⟩
  · exact h (hf ▸ hmem)
  · exact h (hf ▸ by simp [hmem])

/-! ## A record behind an unfinished line -/

section Tail
variable {now : Int}

/-- A hidden piece is read and skipped; the next round starts behind it. -/
theorem acceptedRecords_hidden {piece : Bytes} (hnl : newline ∉ piece) (h : pieceHidden piece = true) (rest : Bytes) :
    acceptedRecords now (piece ++ rest) = acceptedRecords now rest := by
  simp only [pieceHidden, Bool.and_eq_true, beq_iff_eq, List.contains_iff_mem] at h
  have hf : fgets (piece ++ rest) = piece := by
    rw [fgets_piece hnl rest (.inl h.1.ge), List.take_of_length_le h.1.le]
  have hlong : lineTooLong (fgets (piece ++ rest)) = false := by
    have := length_cstr_lt h.2
    rw [hf]
    simp only [lineTooLong]
    rw [decide_eq_false (by omega), Bool.false_and]
  have hround : readRound now (piece ++ rest) = none := by
    simp only [readRound, hf, parseRecord_eq_none_of_no_newline (cstr_newline hnl), ite_self]
  rw [acceptedRecords_round now (by rintro h0; simp_all), hround, roundLen_of_fits hlong, hf]
  simp

/-- A full piece without NUL is seen to be full, and the rest of its line goes with it. -/
theorem acceptedRecords_full {piece : Bytes} (hnl : newline ∉ piece) (h0 : 0 ∉ piece)
    (hlen : piece.length = MESSAGE_LOG_MAX_LINE - 1) {rest : Bytes} (hrest : newline ∉ rest) :
    acceptedRecords now (piece ++ (rest ++ [newline])) = [] := by
  have hf : fgets (piece ++ (rest ++ [newline])) = piece := by
    rw [fgets_piece hnl _ (.inl hlen.ge), List.take_of_length_le hlen.le]
  have hlong : lineTooLong piece = true := by
    have hlast : byteAt piece (piece.length - 1) ∈ piece := by
      have hlt : piece.length - 1 < piece.length := by rw [hlen]; decide
      rw [byteAt, List.getD_eq_getElem?_getD, List.getElem?_eq_getElem hlt, Option.getD_some]
      exact List.getElem_mem hlt
    simp only [lineTooLong, cstr_of_notMem h0, Bool.and_eq_true, decide_eq_true_eq, bne_iff_ne]
    exact ⟨hlen.ge, ne_of_mem_of_not_mem hlast hnl⟩
  have hround : roundLen (piece ++ (rest ++ [newline])) = (piece ++ (rest ++ [newline])).length := by
    simp only [roundLen, hf, hlong, if_true, List.drop_left, discardLineRemainder_line hrest, List.length_nil,
      Nat.sub_zero]
  rw [acceptedRecords_round now (by simp), readRound, hf, hround]
  simp [hlong]

-- A record, with what the parser makes of it behind other bytes and without its first ones.
variable {body : Bytes} (hnl : newline ∉ body) (h0 : 0 ∉ body) (hlen : body.length + 1 < MESSAGE_LOG_MAX_LINE)
  (hfront : ∀ a, a ≠ [] → messageLogParseRecord (a ++ (body ++ [newline])) now = none)
  (hdrop : ∀ k, 1 ≤ k → messageLogParseRecord ((body ++ [newline]).drop k) now = none)
include hnl h0 hlen hfront hdrop

/-- A record that shares a piece with what stands in front of it is lost. -/
theorem acceptedRecords_merged {a : Bytes} (hanl : newline ∉ a) (hne : a ≠ [])
    (ha : a.length < MESSAGE_LOG_MAX_LINE - 1) : acceptedRecords now (a ++ (body ++ [newline])) = [] := by
  have hab : newline ∉ a ++ body := by simp [hanl, hnl]
  have hassoc : a ++ (body ++ [newline]) = (a ++ body) ++ [newline] := by simp
  rcases Nat.lt_or_ge ((a ++ body).length + 1) MESSAGE_LOG_MAX_LINE with hfit | hfit
  · by_cases hz : 0 ∈ a
    · -- The line ends for the parser at the NUL.
      rw [hassoc, acceptedRecords_line hab hfit, ← hassoc, cstr_append_of_mem hz,
        parseRecord_eq_none_of_no_newline (cstr_newline hanl)]
      rfl
    · have hz' : 0 ∉ a ++ body := by simp [hz, h0]
      rw [hassoc, acceptedRecords_line hab hfit, cstr_of_notMem (zero_notMem_line hz'), ← hassoc, hfront a hne]
      rfl
  · -- The piece ends inside the record.
    have hsplit : a ++ (body ++ [newline]) =
        (a ++ body).take (MESSAGE_LOG_MAX_LINE - 1) ++ ((a ++ body).drop (MESSAGE_LOG_MAX_LINE - 1) ++ [newline]) := by
      rw [hassoc, ← List.append_assoc, List.take_append_drop]
    have htake : ((a ++ body).take (MESSAGE_LOG_MAX_LINE - 1)).length = MESSAGE_LOG_MAX_LINE - 1 := by
      rw [List.length_take]
      omega
    have htnl : newline ∉ (a ++ body).take (MESSAGE_LOG_MAX_LINE - 1) := fun h => hab (List.mem_of_mem_take h)
    have hdnl : newline ∉ (a ++ body).drop (MESSAGE_LOG_MAX_LINE - 1) := fun h => hab (List.mem_of_mem_drop h)
    by_cases hz : 0 ∈ (a ++ body).take (MESSAGE_LOG_MAX_LINE - 1)
    · rw [hsplit, acceptedRecords_hidden htnl (by simp [pieceHidden, htake, hz])]
      have hrest : (a ++ body).drop (MESSAGE_LOG_MAX_LINE - 1) = body.drop (MESSAGE_LOG_MAX_LINE - 1 - a.length) := by
        rw [List.drop_append, List.drop_of_length_le ha.le, List.nil_append]
      have hb0 : 0 ∉ body.drop (MESSAGE_LOG_MAX_LINE - 1 - a.length) := fun h => h0 (List.mem_of_mem_drop h)
      rw [hrest, acceptedRecords_line (hrest ▸ hdnl) (by rw [List.length_drop]; omega),
        cstr_of_notMem (zero_notMem_line hb0),
        ← List.drop_append_of_le_length (by rw [List.length_append] at hfit; omega), hdrop _ (by omega)]
      rfl
    · rw [hsplit, acceptedRecords_full htnl hz htake hdnl]

/-- A record is read behind an unfinished line exactly when that line is made of hidden pieces. -/
theorem acceptedRecords_tail {a : Bytes} (hanl : newline ∉ a) :
    acceptedRecords now (a ++ (body ++ [newline])) =
      if (cut (fun _ => MESSAGE_LOG_MAX_LINE - 1) a).all pieceHidden then acceptedRecords now (body ++ [newline])
      else [] := by
  induction hn : a.length using Nat.strong_induction_on generalizing a with
  | _ n ih =>
    cases a with
    | nil => simp
    | cons b t =>
      have hblock : blockLen (fun _ => MESSAGE_LOG_MAX_LINE - 1) (b :: t) = MESSAGE_LOG_MAX_LINE - 1 := rfl
      rw [cut_cons, hblock, List.all_cons]
      rcases Nat.lt_or_ge (b :: t).length (MESSAGE_LOG_MAX_LINE - 1) with hlt | hge
      · rw [acceptedRecords_merged hnl h0 hlen hfront hdrop hanl (by simp) hlt]
        have : pieceHidden ((b :: t).take (MESSAGE_LOG_MAX_LINE - 1)) = false := by
          rw [pieceHidden, List.length_take, beq_eq_false_iff_ne.2 (by omega), Bool.false_and]
        simp [this]
      · have htake : ((b :: t).take (MESSAGE_LOG_MAX_LINE - 1)).length = MESSAGE_LOG_MAX_LINE - 1 := by
          rw [List.length_take]
          omega
        have htnl : newline ∉ (b :: t).take (MESSAGE_LOG_MAX_LINE - 1) := fun h => hanl (List.mem_of_mem_take h)
        have hdnl : newline ∉ (b :: t).drop (MESSAGE_LOG_MAX_LINE - 1) := fun h => hanl (List.mem_of_mem_drop h)
        nth_rewrite 1 [← List.take_append_drop (MESSAGE_LOG_MAX_LINE - 1) (b :: t)]
        rw [List.append_assoc]
        by_cases hz : 0 ∈ (b :: t).take (MESSAGE_LOG_MAX_LINE - 1)
        · have hhid : pieceHidden ((b :: t).take (MESSAGE_LOG_MAX_LINE - 1)) = true := by
            simp [pieceHidden, htake, hz]
          rw [acceptedRecords_hidden htnl hhid, hhid, Bool.true_and]
          refine ih _ ?_ hdnl rfl
          rw [← hn, List.length_drop, List.length_cons]
          simp only [MESSAGE_LOG_MAX_LINE]
          omega
        · have hhid : pieceHidden ((b :: t).take (MESSAGE_LOG_MAX_LINE - 1)) = false := by
            simp [pieceHidden, hz]
          rw [hhid, ← List.append_assoc ((b :: t).drop _), acceptedRecords_full htnl hz htake (by simp [hdnl, hnl])]
          simp

end Tail

/-! ## Saving -/

theorem contents_append (dir : LogDir) (bytes : Bytes) (renames : Bool) :
    (dir.append bytes renames).contents =
      if (dir.contents ++ bytes).length > MAX_LOG_SIZE ∧ renames = true then [] else dir.contents ++ bytes := by
  simp only [LogDir.append]
  split <;> rfl

/-- The readers take the whole of a record, when they come to its start. -/
theorem acceptedRecords_recordText {m : Message} {now : Int} (hu : newline ∉ m.username.bytes)
    (hc : newline ∉ m.content.bytes) (h : (recordText m).length < MESSAGE_LOG_MAX_LINE) :
    acceptedRecords now (recordText m) = (messageLogParseRecord (recordText m) now).toList := by
  obtain ⟨body, hbody, hnl, h0⟩ := recordText_line hu hc
  rw [hbody, List.length_append, List.length_singleton] at h
  rw [hbody, acceptedRecords_line hnl h, cstr_of_notMem (zero_notMem_line h0)]

theorem acceptedRecords_saved {m : Message} {now : Int} (h : FourDigitYear m.timestamp) :
    acceptedRecords now (recordText (safeMsg m)) = (messageLogParseRecord (recordText (safeMsg m)) now).toList :=
  acceptedRecords_recordText (safeMsg_username m).2 (safeMsg_content m).2
    ((length_recordText_le (m := safeMsg m) h).trans_lt (by decide))

/-- What the readers take from a file with one more record in it. -/
theorem acceptedRecords_append_record {m : Message} {now : Int} (h : FourDigitYear m.timestamp)
    (hw : InWindow now m.timestamp) (file : Bytes) :
    acceptedRecords now (file ++ recordText (safeMsg m)) = acceptedRecords now file ++
      if endsCleanly file then (messageLogParseRecord (recordText (safeMsg m)) now).toList else [] := by
  obtain ⟨body, hbody, hnl, h0⟩ := recordText_safeMsg m
  have hlen := length_recordText_le (m := safeMsg m) h
  rw [hbody, List.length_append, List.length_singleton] at hlen
  have hu := (safeMsg_username m).1
  have hc := (safeMsg_content m).1
  rw [acceptedRecords_lastLine, ← acceptedRecords_saved h, hbody,
    acceptedRecords_tail hnl h0 (by rw [MESSAGE_LOG_MAX_LINE]; omega)
      (fun a ha => hbody ▸ parse_front (m := safeMsg m) h hu hc ha)
      (fun k hk => hbody ▸ parse_drop (m := safeMsg m) h hu hc hw hk) (newline_notMem_lastLine file)]
  rfl

/-- An acknowledged message follows the ones that the readers accepted before, if and only if the
file ended cleanly, was not moved away, and the clock did not show the second that stands for an
error. -/
theorem messageSave_durable (dir dir' : LogDir) (m : Message) (env : SaveEnv) (now : Int)
    (hyear : FourDigitYear m.timestamp) (hwindow : InWindow now m.timestamp)
    (huser : m.username.bytes ≠ []) (huser' : utf8IsValidString m.username.bytes = true)
    (hcontent : m.content.bytes ≠ []) (hcontent' : utf8IsValidString m.content.bytes = true)
    (hsave : messageSave m env dir = (0, dir')) :
    acceptedRecords now dir'.contents = acceptedRecords now dir.contents ++ [safeMsg m] ↔
      endsCleanly dir.contents = true ∧ m.timestamp ≠ -1 ∧
        (dir.contents.length + m.username.bytes.length + m.content.bytes.length + 23 ≤ MAX_LOG_SIZE ∨
          env = .written false) := by
  obtain ⟨renames, rfl, rfl⟩ := (messageSave_zero hyear).1 hsave
  have hlen : (dir.contents ++ recordText (safeMsg m)).length =
      dir.contents.length + m.username.bytes.length + m.content.bytes.length + 23 := by
    rw [List.length_append, length_recordText (m := safeMsg m) hyear]
    simp only [safeMsg, CBuf.map, List.length_map]
    omega
  rw [contents_append, hlen]
  split
  · rename_i hmoved
    rw [acceptedRecords_nil, hmoved.2]
    apply iff_of_false (by simp)
    intro h
    rcases h.2.2 with h | h
    · omega
    · simp at h
  · rename_i hkept
    have hcond : dir.contents.length + m.username.bytes.length + m.content.bytes.length + 23 ≤ MAX_LOG_SIZE ∨
        SaveEnv.written renames = .written false := by
      rcases Nat.lt_or_ge MAX_LOG_SIZE
        (dir.contents.length + m.username.bytes.length + m.content.bytes.length + 23) with hlt | hge
      · right
        cases renames with
        | false => rfl
        | true => exact absurd ⟨hlt, rfl⟩ hkept
      · exact .inl hge
    rw [acceptedRecords_append_record hyear hwindow, List.append_cancel_left_eq, and_iff_left hcond]
    by_cases hts : m.timestamp = -1
    · have hnone : messageLogParseRecord (recordText (safeMsg m)) now = none := by
        rw [Option.eq_none_iff_forall_ne_some]
        intro m' hm'
        have := (parse_recordText_iff (m := safeMsg m) hyear (safeMsg_username m).1).1 ⟨m', hm'⟩
        exact this.timestamp hts
      simp [hnone, hts]
    · have hsome := parse_recordText (m := safeMsg m) hyear
        (replayable_safeMsg.2 ⟨huser, hcontent, huser', hcontent', hts, hwindow⟩)
      rw [hsome]
      cases endsCleanly dir.contents <;> simp [hts]

/-- A record cut short by a crash, as the only line of the log. -/
def crashedDir : LogDir := ⟨some (lit "2025-07-14T13:33:20Z|bob|see yo"), none⟩

/-- "hi" from ann, at 2025-07-14T13:33:20Z. -/
def annHi : Message := ⟨1752500000, CBuf.copy MAX_USERNAME_LEN (lit "ann"), CBuf.copy MAX_MESSAGE_LEN (lit "hi")⟩

theorem messageSave_durable_ann :
    acceptedRecords 1752500000 ((⟨none, none⟩ : LogDir).append (recordText (safeMsg annHi)) true).contents = [annHi] :=
  (messageSave_durable ⟨none, none⟩ _ annHi (.written true) 1752500000 (by decide) (by decide) (by decide) (by decide)
    (by decide) (by decide) ((messageSave_zero (by decide)).2 ⟨true, rfl, rfl⟩)).2 (by decide)

/-- Behind the unfinished record the message is saved, and not read. -/
theorem messageSave_lost_behind_crash :
    crashedDir.contents.length < MAX_LOG_SIZE ∧
      utf8IsValidString annHi.username.bytes = true ∧ utf8IsValidString annHi.content.bytes = true ∧
      (messageSave annHi (.written true) crashedDir).1 = 0 ∧
      acceptedRecords 1752500000 (messageSave annHi (.written true) crashedDir).2.contents ≠
        acceptedRecords 1752500000 crashedDir.contents ++ [safeMsg annHi] := by
  refine ⟨by decide, by decide, by decide, by decide, by decide⟩

end Tnt
