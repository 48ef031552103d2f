import Tnt.Readers
/-!
# Replay and export (`message.c`)

`message_load` looks for the last `maxMessages` lines from the end of the file,
in chunks, and reads from there; `message_dump_text` reads the whole file and
keeps the last records in a ring. `messageLoad_lines` says what the first of them
returns and `replay_is_export` when the two agree.
-/
open BaseLib

namespace Tnt

/-! ## Where `message_load` starts -/

theorem take_succ_byteAt {s : Bytes} {i : Nat} (h : i < s.length) : s.take (i + 1) = s.take i ++ [byteAt s i] := by
  rw [List.take_succ_eq_append_getElem h, byteAt, List.getD_eq_getElem?_getD, List.getElem?_eq_getElem h,
    Option.getD_some]

/-- The scan of a chunk counts newlines from the end, up to the one that makes `maxMessages`. -/
theorem scanChunk_spec {maxMessages : Nat} {chunk : Bytes} {i found : Nat} (hi : i ≤ chunk.length)
    (hfound : found < maxMessages) :
    (∃ found', scanChunk maxMessages chunk i found = .inr found' ∧ found' = found + (chunk.take i).count newline ∧
      found' < maxMessages) ∨
    ∃ j, scanChunk maxMessages chunk i found = .inl j ∧ j < i ∧ byteAt chunk j = newline ∧
      found + ((chunk.take i).drop j).count newline = maxMessages := by
  induction i generalizing found with
  | zero => exact .inl ⟨found, rfl, rfl, hfound⟩
  | succ i ih =>
    have hlen : (chunk.take i).length = i := List.length_take_of_le (by omega)
    rw [take_succ_byteAt hi, List.count_append, scanChunk]
    have hdrop {j : Nat} (hj : j < i) :
        (chunk.take i ++ [byteAt chunk i]).drop j = (chunk.take i).drop j ++ [byteAt chunk i] :=
      List.drop_append_of_le_length (by omega)
    by_cases hb : byteAt chunk i = newline
    · rw [if_pos hb, hb, List.count_singleton_self]
      by_cases hlast : found + 1 ≥ maxMessages
      · refine .inr ⟨i, if_pos hlast, Nat.lt_succ_self i, hb, ?_⟩
        rw [List.drop_left' hlen, List.count_singleton_self]
        omega
      · rw [if_neg hlast]
        rcases ih (by omega) (Nat.not_le.1 hlast) with ⟨found', hscan, hcount, hlt⟩ | ⟨j, hscan, hj, hnl, hcount⟩
        · exact .inl ⟨found', hscan, by omega, hlt⟩
        · refine .inr ⟨j, hscan, by omega, hnl, ?_⟩
          rw [← hb, hdrop hj, hb, List.count_append, List.count_singleton_self]
          omega
    · have h0 : [byteAt chunk i].count newline = 0 := List.count_eq_zero.2 (by simpa using Ne.symm hb)
      rw [if_neg hb, h0]
      rcases ih (by omega) hfound with ⟨found', hscan, hcount, hlt⟩ | ⟨j, hscan, hj, hnl, hcount⟩
      · exact .inl ⟨found', hscan, by omega, hlt⟩
      · refine .inr ⟨j, hscan, by omega, hnl, ?_⟩
        rw [hdrop hj, List.count_append, h0]
        omega

/-- There is something to read as long as something is left. -/
theorem chunkSize_bounds {left : Nat} (h : left ≠ 0) :
    0 < (if left > CHUNK_SIZE then CHUNK_SIZE else left) ∧ (if left > CHUNK_SIZE then CHUNK_SIZE else left) ≤ left := by
  split
  · exact ⟨by decide, by omega⟩
  · omega

/-- The scan stops behind the newline that makes `maxMessages`, or at the start of the file. -/
theorem scanBack_spec {maxMessages : Nat} {file : Bytes} {rounds left found : Nat} (hleft : left ≤ file.length)
    (hrounds : left ≤ rounds) (hfound : found < maxMessages) :
    (scanBack maxMessages file rounds left found = 0 ∧ found + (file.take left).count newline < maxMessages) ∨
    ∃ k < left, scanBack maxMessages file rounds left found = k + 1 ∧ byteAt file k = newline ∧
      found + ((file.take left).drop k).count newline = maxMessages := by
  -- Each round takes one chunk off the end of what is left, so there are rounds enough for one of each byte.
  induction rounds generalizing left found with
  | zero =>
    obtain rfl := Nat.le_zero.1 hrounds
    exact .inl ⟨rfl, hfound⟩
  | succ rounds ih =>
    rw [scanBack]
    by_cases h0 : left = 0
    · subst h0
      exact .inl ⟨if_pos (.inl rfl), hfound⟩
    rw [if_neg (by omega)]
    obtain ⟨size, hsize⟩ : ∃ size, size = if left > CHUNK_SIZE then CHUNK_SIZE else left := ⟨_, rfl⟩
    have hpos : 0 < size ∧ size ≤ left := hsize ▸ chunkSize_bounds h0
    dsimp only
    rw [← hsize]
    obtain ⟨chunk, hchunk⟩ : ∃ chunk, chunk = (file.drop (left - size)).take size := ⟨_, rfl⟩
    have hlen : chunk.length = size := by
      rw [hchunk, List.length_take, List.length_drop]
      omega
    have hwhole : file.take left = file.take (left - size) ++ chunk := by
      rw [hchunk, ← List.take_add, Nat.sub_add_cancel hpos.2]
    have hfront : (file.take (left - size)).length = left - size := List.length_take_of_le (by omega)
    rw [← hchunk, hwhole]
    rcases scanChunk_spec hlen.ge hfound with ⟨found', hscan, hcount, hlt⟩ | ⟨j, hscan, hj, hnl, hcount⟩
    · rw [← hlen, List.take_length] at hcount
      rw [hscan]
      dsimp only
      rw [List.count_append]
      rcases @ih (left - size) found' (by omega) (by omega) hlt with ⟨hstart, hfew⟩ | ⟨k, hk, hstart, hnl, hmany⟩
      · exact .inl ⟨hstart, by omega⟩
      · refine .inr ⟨k, by omega, hstart, hnl, ?_⟩
        rw [List.drop_append_of_le_length (by omega), List.count_append]
        omega
    · rw [hscan]
      refine .inr ⟨left - size + j, by omega, rfl, ?_, ?_⟩
      · rw [← hnl, hchunk, byteAt, byteAt, List.getD_eq_getElem?_getD, List.getD_eq_getElem?_getD,
          List.getElem?_take_of_lt hj, List.getElem?_drop]
      · rw [← hlen, List.take_length] at hcount
        rw [← hcount, List.drop_append, List.drop_of_length_le (by omega), List.nil_append, hfront,
          Nat.add_sub_cancel_left]

/-- `message_load` reads the last `maxMessages` lines of the file. -/
theorem fileLines_loadStart {maxMessages : Nat} (hmax : 0 < maxMessages) {file : Bytes} (hne : file ≠ []) :
    fileLines (file.drop (loadStart maxMessages file)) = (fileLines file).rtake maxMessages := by
  obtain ⟨init, b, rfl⟩ := (List.eq_nil_or_concat file).resolve_left hne
  rw [List.concat_eq_append]
  have hb : byteAt (init ++ [b]) init.length = b := by
    simp [byteAt, List.getD_eq_getElem?_getD]
  have hlen : (init ++ [b]).length = init.length + 1 := List.length_append
  obtain ⟨left, hleft⟩ : ∃ left, left = if b = newline then init.length else init.length + 1 := ⟨_, rfl⟩
  have hstart : loadStart maxMessages (init ++ [b]) = scanBack maxMessages (init ++ [b]) left left 0 := by
    rw [loadStart, hlen, Nat.add_sub_cancel, hb, hleft]
  -- The newlines that count are those in front of the last byte.
  have hcount (k : Nat) (hk : k ≤ init.length) :
      (((init ++ [b]).take left).drop k).count newline = (init.drop k).count newline := by
    rw [hleft]
    split
    · rw [List.take_left]
    · rename_i hnl
      rw [List.take_of_length_le hlen.le, List.drop_append_of_le_length hk, List.count_append,
        List.count_eq_zero.2 (show newline ∉ [b] by simpa using Ne.symm hnl), Nat.add_zero]
  rw [hstart]
  rcases scanBack_spec (show left ≤ (init ++ [b]).length by rw [hleft, hlen]; split <;> omega)
    (Nat.le_refl left) hmax with
    ⟨hzero, hfew⟩ | ⟨k, hk, hstart, hnl, hmany⟩
  · have hlines := @length_lines _ _ newline (init ++ [b]) (by simp)
    have h0 := hcount 0 (Nat.zero_le _)
    rw [List.drop_zero, List.drop_zero] at h0
    rw [List.dropLast_concat] at hlines
    rw [hzero, List.drop_zero, List.rtake, Nat.sub_eq_zero_of_le (by rw [fileLines]; omega), List.drop_zero]
  · have hlt : k < init.length := by
      rcases Nat.lt_or_ge k init.length with h | h
      · exact h
      · rw [hleft] at hk
        split at hk
        · exact absurd hk (Nat.not_lt.2 h)
        · rename_i hne
          obtain rfl : k = init.length := by omega
          exact absurd (hb ▸ hnl) hne
    obtain ⟨a, rest, rfl, rfl⟩ : ∃ a rest, init = a ++ newline :: rest ∧ a.length = k := by
      refine ⟨init.take k, init.drop (k + 1), ?_, List.length_take_of_le hlt.le⟩
      rw [← hnl, byteAt_append hlt, ← List.singleton_append, ← List.append_assoc, ← take_succ_byteAt hlt,
        List.take_append_drop]
    rw [hcount a.length hlt.le, List.drop_left, List.count_cons_self] at hmany
    have hfile : a ++ newline :: rest ++ [b] = (a ++ [newline]) ++ (rest ++ [b]) := by simp
    have hlines := @length_lines _ _ newline (rest ++ [b]) (by simp)
    rw [List.dropLast_concat] at hlines
    have hmax : (lines newline (rest ++ [b])).length = maxMessages := by omega
    rw [hstart, hfile, List.drop_left' (by simp), fileLines, fileLines, lines_append (.inr ⟨a, rfl⟩), List.rtake,
      List.length_append, hmax, Nat.add_sub_cancel, List.drop_left]

/-- `message_load` returns the records in the last lines of the file. -/
theorem messageLoad_lines (dir : LogDir) {maxMessages : Nat} (hmax : 0 < maxMessages) (now : Int) :
    messageLoad dir maxMessages now =
      ((fileLines dir.contents).rtake maxMessages).flatMap (acceptedRecords now) := by
  unfold messageLoad LogDir.contents
  rcases dir.log with _ | file
  · simp [fileLines]
  · by_cases hne : file = []
    · simp [hne, fileLines]
    · have hlines := fileLines_loadStart hmax hne
      dsimp only [Option.getD_some]
      rw [if_neg (mt List.length_eq_zero_iff.1 hne), acceptedRecords_flatMap, hlines]
      apply List.take_of_length_le
      have hle : ((fileLines file).rtake maxMessages).length ≤ maxMessages := by
        rw [List.rtake, List.length_drop]
        omega
      refine (length_flatMap_le fun line hline => ?_).1.trans hle
      rw [@acceptedRecords_exposed file _ _ (List.mem_of_mem_drop hline)]
      exact Option.length_toList_le

/-- Of the records of the file these are the last ones when no line in front of the last `maxMessages`
lines holds a record, or each of these lines does, and in no other case. -/
theorem messageLoad_rtake_iff (dir : LogDir) {maxMessages : Nat} (hmax : 0 < maxMessages) (now : Int) :
    messageLoad dir maxMessages now = (acceptedRecords now dir.contents).rtake maxMessages ↔
      (∀ line ∈ (fileLines dir.contents).rdrop maxMessages, exposedRecord now line = none) ∨
        ∀ line ∈ (fileLines dir.contents).rtake maxMessages, exposedRecord now line ≠ none := by
  have hrecord {line : Bytes} (hline : line ∈ fileLines dir.contents) :
      acceptedRecords now line = [] ↔ exposedRecord now line = none := by
    rw [acceptedRecords_exposed _ hline, Option.toList_eq_nil_iff]
  have hdrop := fun line (hline : line ∈ (fileLines dir.contents).rdrop maxMessages) =>
    hrecord (List.mem_of_mem_take hline)
  have htake := fun line (hline : line ∈ (fileLines dir.contents).rtake maxMessages) =>
    not_congr (hrecord (List.mem_of_mem_drop hline))
  rw [messageLoad_lines dir hmax, acceptedRecords_flatMap, flatMap_rtake_iff, forall₂_congr hdrop, forall₂_congr htake]
  intro line hline
  rw [acceptedRecords_exposed _ hline]
  exact Option.length_toList_le

/-- Replay returns the last records, which are those that are exported, if and only if no line in
front of the last `maxRecords` lines of the log holds a record, or each of these lines does. -/
theorem replay_is_export (dir : LogDir) (now : Int) (maxRecords : Nat) (hmax : 0 < maxRecords) :
    messageLoad dir maxRecords now = (acceptedRecords now dir.contents).rtake maxRecords ∧
        messageDumpText dir maxRecords now = (messageLoad dir maxRecords now).flatMap recordText ↔
      (∀ line ∈ (fileLines dir.contents).rdrop maxRecords, exposedRecord now line = none) ∨
        ∀ line ∈ (fileLines dir.contents).rtake maxRecords, exposedRecord now line ≠ none := by
  rw [messageDumpText_limit dir hmax, ← messageLoad_rtake_iff dir hmax now]
  exact ⟨fun h => h.1, fun h => ⟨h, by rw [h]⟩⟩

/-- A message of ann. -/
def annDir : LogDir := ⟨some (lit "2025-07-14T13:33:20Z|ann|hi\n"), none⟩

theorem replay_is_export_ann :
    messageLoad annDir 1 1752500000 = (acceptedRecords 1752500000 annDir.contents).rtake 1 ∧
      messageDumpText annDir 1 1752500000 = (messageLoad annDir 1 1752500000).flatMap recordText :=
  (replay_is_export annDir 1752500000 1 (by decide)).2 (.inr (by decide))

/-- A line that is no record, behind the message of ann. -/
def garbledDir : LogDir := ⟨some (annDir.contents ++ lit "garbage\n"), none⟩

/-- The message is exported as the last record, and not replayed. -/
theorem replay_misses_ann :
    messageLoad garbledDir 1 1752500000 = [] ∧
      messageLoad garbledDir 1 1752500000 ≠ (acceptedRecords 1752500000 garbledDir.contents).rtake 1 ∧
        messageDumpText garbledDir 1 1752500000 ≠ (messageLoad garbledDir 1 1752500000).flatMap recordText := by
  decide

end Tnt
