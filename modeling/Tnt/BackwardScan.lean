import Tnt.Replay
/-!
# The backward scan of `message_load` (`message.c`)

`scanLoop` is the loop of the source, with its `long` position and every read that it
makes. It comes to where `loadStart` says and reads nothing that is not in the file;
where the file has no NUL, the records behind that place are those that the parser
finds in the last lines.
-/
open BaseLib

namespace Tnt

/-- `fseek` and a read: where it starts, and the bytes that it asks for. -/
structure FileRead where
  offset : Int
  size : Int

/-- What is read. -/
def FileRead.bytes (read : FileRead) (file : Bytes) : Bytes := (file.drop read.offset.toNat).take read.size.toNat

/-- All bytes that it asks for are in the file. -/
def FileRead.Inside (read : FileRead) (file : Bytes) : Prop :=
  0 ≤ read.offset ∧ 0 < read.size ∧ read.offset + read.size ≤ file.length

/-- `read_size` -/
def readSize (pos : Int) : Int := if pos ≥ CHUNK_SIZE then CHUNK_SIZE else pos + 1

theorem readSize_pos {pos : Int} (h : pos ≥ 0) : 1 ≤ readSize pos ∧ readSize pos ≤ pos + 1 := by
  unfold readSize CHUNK_SIZE
  omega

/-- The loop over the chunks: where it seeks to, and its reads. -/
def scanLoop (maxMessages : Nat) (file : Bytes) (pos : Int) (newlinesFound : Nat) : Int × List FileRead :=
  if _hloop : pos ≥ 0 ∧ newlinesFound < maxMessages then
    let readPos := pos - readSize pos + 1
    let read : FileRead := ⟨readPos, readSize pos⟩
    let chunk := read.bytes file
    if chunk.length ≠ readSize pos then (0, [read])
    else
      match scanChunk maxMessages chunk (readSize pos).toNat newlinesFound with
      | .inl i => (readPos + i + 1, [read])
      | .inr newlinesFound =>
        let (start, reads) := scanLoop maxMessages file (pos - readSize pos) newlinesFound
        (start, read :: reads)
  else (0, [])
termination_by (pos + 1).toNat
decreasing_by
  -- At least one byte is read in each round.
  have hread := readSize_pos _hloop.1
  omega

/-- `message_load`, with the reads of its scan. -/
def messageLoadScanned (dir : LogDir) (maxMessages : Nat) (now : Int) : List Message × List FileRead :=
  match dir.log with
  | none => ([], [])
  | some file =>
    let fileSize : Int := file.length
    if fileSize ≤ 0 then ([], [])
    else
      let pos := fileSize - 1
      let last : FileRead := ⟨pos, 1⟩
      let pos := if last.bytes file = [newline] then pos - 1 else pos
      let (start, reads) := scanLoop maxMessages file pos 0
      ((acceptedRecords now (file.drop start.toNat)).take maxMessages, last :: reads)

/-! ## The loop -/

/-- With `left` bytes in front of it, the loop comes to where `scanBack` does. -/
theorem scanLoop_spec {maxMessages : Nat} {file : Bytes} {rounds left found : Nat} (hleft : left ≤ file.length)
    (hrounds : left ≤ rounds) :
    (scanLoop maxMessages file ((left : Int) - 1) found).1 = scanBack maxMessages file rounds left found ∧
      ∀ read ∈ (scanLoop maxMessages file ((left : Int) - 1) found).2, read.Inside file := by
  induction rounds generalizing left found with
  | zero =>
    obtain rfl := Nat.le_zero.1 hrounds
    rw [scanLoop, dif_neg (by omega)]
    exact ⟨rfl, by simp⟩
  | succ rounds ih =>
    rw [scanLoop, scanBack]
    by_cases hdone : left = 0 ∨ found ≥ maxMessages
    · rw [if_pos hdone, dif_neg (by omega)]
      exact ⟨rfl, by simp⟩
    rw [if_neg hdone, dif_pos (by omega)]
    obtain ⟨size, hsize⟩ : ∃ size, size = if left > CHUNK_SIZE then CHUNK_SIZE else left := ⟨_, rfl⟩
    have hpos : 0 < size ∧ size ≤ left := hsize ▸ chunkSize_bounds (not_or.1 hdone).1
    have hread : readSize ((left : Int) - 1) = size := by
      rw [hsize, readSize]
      split
      · rw [if_pos (by omega)]
      · rw [if_neg (by omega)]
        omega
    have hnext : (left : Int) - 1 - size = ((left - size : Nat) : Int) - 1 := by omega
    have hinside : FileRead.Inside ⟨(left - size : Nat), size⟩ file :=
      ⟨by simp, by simp only; omega, by simp only; omega⟩
    simp only [hread, hnext, Int.sub_add_cancel, ← hsize]
    obtain ⟨chunk, hchunk⟩ : ∃ chunk, chunk = (file.drop (left - size)).take size := ⟨_, rfl⟩
    have hbytes : FileRead.bytes ⟨(left - size : Nat), size⟩ file = chunk := by
      rw [hchunk, FileRead.bytes, Int.toNat_natCast, Int.toNat_natCast]
    have hlen : chunk.length = size := by
      rw [hchunk, List.length_take, List.length_drop]
      omega
    rw [hbytes, ← hchunk, if_neg (by simp [hlen]), Int.toNat_natCast]
    cases scanChunk maxMessages chunk size found with
    | inl i => exact ⟨rfl, by simpa using hinside⟩
    | inr found' =>
      obtain ⟨hstart, hreads⟩ := @ih (left - size) found' (by omega) (by omega)
      refine ⟨hstart, fun read hread => ?_⟩
      rcases List.mem_cons.1 hread with rfl | hread
      · exact hinside
      · exact hreads read hread

/-- The byte at the end of a file. -/
theorem bytes_last {file : Bytes} (hne : file ≠ []) :
    FileRead.bytes ⟨(file.length : Int) - 1, 1⟩ file = [byteAt file (file.length - 1)] := by
  have hlen := List.length_pos_iff.2 hne
  have hoffset : ((file.length : Int) - 1).toNat = file.length - 1 := by omega
  have hdrop := List.drop_eq_getElem_cons (show file.length - 1 < file.length by omega)
  rw [FileRead.bytes, hoffset, hdrop, byteAt, List.getD_eq_getElem?_getD,
    List.getElem?_eq_getElem (show file.length - 1 < file.length by omega)]
  rfl

/-- `message_load` scans as `loadStart` does, and every byte that it asks for is there. -/
theorem messageLoadScanned_spec (file : Bytes) (backup : Option Bytes) (maxMessages : Nat) (now : Int) :
    (messageLoadScanned ⟨some file, backup⟩ maxMessages now).1 = messageLoad ⟨some file, backup⟩ maxMessages now ∧
      ∀ read ∈ (messageLoadScanned ⟨some file, backup⟩ maxMessages now).2, read.Inside file := by
  unfold messageLoadScanned messageLoad
  by_cases hne : file = []
  · simp [hne]
  have hlen := List.length_pos_iff.2 hne
  obtain ⟨left, hleft⟩ : ∃ left, left =
      if byteAt file (file.length - 1) = newline then file.length - 1 else file.length := ⟨_, rfl⟩
  have hpos : (if FileRead.bytes ⟨(file.length : Int) - 1, 1⟩ file = [newline] then (file.length : Int) - 1 - 1
      else (file.length : Int) - 1) = (left : Int) - 1 := by
    rw [bytes_last hne, hleft]
    simp only [List.singleton_inj]
    split
    · omega
    · omega
  obtain ⟨hstart, hreads⟩ :=
    @scanLoop_spec maxMessages file left left 0 (by rw [hleft]; split <;> omega) (Nat.le_refl _)
  simp only [hpos]
  rw [if_neg (by omega), if_neg (by omega), hstart, Int.toNat_natCast, loadStart, ← hleft]
  refine ⟨rfl, fun read hread => ?_⟩
  rcases List.mem_cons.1 hread with rfl | hread
  · exact ⟨by simp only; omega, Int.one_pos, by simp only; omega⟩
  · exact hreads read hread

/-! ## Files without NUL -/

/-- Of a line without NUL the readers take what the parser does, however long it is. -/
theorem acceptedRecords_nul_free {now : Int} {file line : Bytes} (hline : line ∈ fileLines file) (hzero : 0 ∉ line) :
    acceptedRecords now line = (messageLogParseRecord line now).toList := by
  rcases Nat.lt_or_ge line.length MESSAGE_LOG_MAX_LINE with hlen | hlen
  · have hfits : ¬(0 ∈ line ∨ line.length ≥ MESSAGE_LOG_MAX_LINE) := not_or.2 ⟨hzero, Nat.not_le.2 hlen⟩
    rw [acceptedRecords_short hline hlen, lineRecord, if_neg hfits]
  · have hparse : messageLogParseRecord line now = none := by
      cases hparse : messageLogParseRecord line now with
      | none => rfl
      | some m =>
        obtain ⟨-, -, hshort, -⟩ := (parseRecord_iff _ _ _).1 hparse
        exact absurd hshort (Nat.not_lt.2 hlen)
    -- The first piece is full and no line of its own, and all behind it is skipped.
    have hlong : MESSAGE_LOG_MAX_LINE - 1 < line.length := hlen
    have hrest : pieces (line.drop (MESSAGE_LOG_MAX_LINE - 1)) ≠ [] :=
      cut_ne_nil (List.ne_nil_of_length_pos (by rw [List.length_drop]; omega))
    have hshown : pieceHidden (line.take (MESSAGE_LOG_MAX_LINE - 1)) = false := by
      have hnot : 0 ∉ line.take (MESSAGE_LOG_MAX_LINE - 1) := fun hm => hzero (List.mem_of_mem_take hm)
      simp [pieceHidden, hnot]
    rw [acceptedRecords_exposed now hline, hparse, exposedRecord, exposedPiece, pieces_long hlong.le,
      List.dropLast_cons_of_ne_nil hrest, List.all_cons, hshown]
    rfl

/-- The backward scan finds the last lines of the file, and `message_load` returns the records that the parser accepts
among them. It reads nothing outside of the file. -/
theorem load_backward_is_forward (now : Int) (file : Bytes) (backup : Option Bytes) (maxMessages : Nat)
    (hmax : 0 < maxMessages)
    (hzero : 0 ∉ file) :
    (messageLoadScanned ⟨some file, backup⟩ maxMessages now).1 =
        ((fileLines file).rtake maxMessages).filterMap (messageLogParseRecord · now) ∧
      ∀ read ∈ (messageLoadScanned ⟨some file, backup⟩ maxMessages now).2, read.Inside file := by
  obtain ⟨hload, hreads⟩ := messageLoadScanned_spec file backup maxMessages now
  refine ⟨?_, hreads⟩
  rw [hload, messageLoad_lines _ hmax, List.filterMap_eq_flatMap_toList]
  apply List.flatMap_congr
  intro line hline
  have hmem : line ∈ fileLines file := List.mem_of_mem_drop hline
  refine acceptedRecords_nul_free hmem fun hz => hzero ?_
  have hflat : 0 ∈ (fileLines file).flatten := List.mem_flatten_of_mem hmem hz
  rwa [fileLines, lines_flatten] at hflat

/-- The last line of a file that ends with an empty one. -/
theorem load_backward_is_forward_empty_line :
    (messageLoadScanned ⟨some (lit "2025-07-14T13:33:20Z|ann|hi\n\n"), none⟩ 1 1752500000).1 =
      ((fileLines (lit "2025-07-14T13:33:20Z|ann|hi\n\n")).rtake 1).filterMap (messageLogParseRecord · 1752500000) :=
  (load_backward_is_forward 1752500000 _ none 1 Nat.one_pos (by decide)).1

end Tnt
