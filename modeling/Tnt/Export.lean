import Tnt.Readers
/-!
# The buffer of the export (`message.c`)

`message_dump_text` counts the records in an `int` and writes them to a buffer that is
doubled where it is too small. Here are these counters and this buffer; `none` is where
the buffer cannot grow, or where an `int` would overflow. Below 2^31 records neither
happens, and the four readers select and order the same records.
-/
open BaseLib

namespace Tnt

def INT_MAX : Nat := 2 ^ 31 - 1

def SIZE_MAX : Nat := 2 ^ 64 - 1

/-- The sum of two `int`s that are not negative. -/
def intAdd (a b : Nat) : Option Nat := if a + b ≤ INT_MAX then some (a + b) else none

/-- `*output`, the bytes that were written to it and its capacity. -/
structure DumpBuffer where
  bytes : Bytes
  capacity : Nat

/-- The loop that doubles `new_capacity`. -/
def growCapacity (needed len newCapacity : Nat) (hpos : 0 < newCapacity) : Option Nat :=
  if needed + 1 > newCapacity - len then
    if newCapacity > SIZE_MAX / 2 then none
    else growCapacity needed len (newCapacity * 2) (Nat.mul_pos hpos Nat.two_pos)
  else some newCapacity
termination_by SIZE_MAX - newCapacity
decreasing_by omega

/-- The capacity after room was made for `needed` bytes and a NUL. -/
def roomFor (output : DumpBuffer) (needed : Nat) : Option Nat :=
  let len := output.bytes.length
  let available := if output.capacity > len then output.capacity - len else 0
  if needed + 1 > available then
    if h : output.capacity = 0 then growCapacity needed len 1024 (by decide)
    else growCapacity needed len output.capacity (Nat.pos_of_ne_zero h)
  else some output.capacity

/-- `append_dump_record` -/
def appendDumpRecord (output : DumpBuffer) (msg : Message) : Option DumpBuffer := do
  let capacity ← roomFor output (recordText msg).length
  let record ← messageLogFormatRecord msg (capacity - output.bytes.length)
  return ⟨output.bytes ++ record, capacity⟩

/-- The records of the ring, from the oldest one on. -/
def appendRing (ring : BaseLib.Ring Message) (maxRecords : Nat) : Option DumpBuffer :=
  let count := if ring.seen < maxRecords then ring.seen else maxRecords
  let start := if ring.seen < maxRecords then 0 else ring.seen % maxRecords
  (List.range count).foldlM (fun buf i => do
    let k ← intAdd start i
    let msg ← ring.cells[k % maxRecords]?
    appendDumpRecord buf msg) ⟨[], 0⟩

/-- `ring[seen % max_records] = parsed; seen++;` -/
def pushRing (ring : BaseLib.Ring Message) (parsed : Message) : Option (BaseLib.Ring Message) := do
  let seen ← intAdd ring.seen 1
  return ⟨ring.cells.set (ring.seen % ring.cells.length) parsed, seen⟩

/-- A loop that ends at the first record for which it fails. -/
def readLoopM {σ : Type} (now : Int) (file : Bytes) (f : σ → Message → Option σ) (s : σ) : Option σ :=
  readLoop now file (fun s round =>
    match round with
    | none => s
    | some parsed => s.bind (f · parsed)) (some s)

/-- `message_dump_text`, with its buffer and its counters. -/
def messageDumpTextBuffered (dir : LogDir) (maxRecords : Nat) (now : Int) : Option Bytes :=
  match dir.log with
  | none => some []
  | some file =>
    if maxRecords > 0 then do
      let ring ← readLoopM now file pushRing (Ring.fresh maxRecords zeroMessage)
      if ring.seen > 0 then
        let buf ← appendRing ring maxRecords
        return buf.bytes
      else return []
    else (readLoopM now file appendDumpRecord ⟨[], 0⟩).map DumpBuffer.bytes

/-! ## The buffer -/

theorem growCapacity_some {needed len newCapacity : Nat} (hpos : 0 < newCapacity) (h : len + needed + 1 ≤ 2 ^ 63) :
    ∃ capacity, growCapacity needed len newCapacity hpos = some capacity ∧ len + needed + 1 ≤ capacity := by
  fun_induction growCapacity needed len newCapacity hpos with
  | case1 newCapacity hpos hsmall hlarge =>
    simp only [SIZE_MAX] at hlarge
    omega
  | case2 newCapacity hpos hsmall hlarge ih => exact ih
  | case3 newCapacity hpos hroom => exact ⟨newCapacity, rfl, by omega⟩

theorem roomFor_some {output : DumpBuffer} {needed : Nat} (h : output.bytes.length + needed + 1 ≤ 2 ^ 63) :
    ∃ capacity, roomFor output needed = some capacity ∧ output.bytes.length + needed + 1 ≤ capacity := by
  by_cases hfits : needed + 1 >
      if output.capacity > output.bytes.length then output.capacity - output.bytes.length else 0
  · rw [roomFor, if_pos hfits]
    split
    · exact growCapacity_some _ h
    · exact growCapacity_some _ h
  · refine ⟨output.capacity, if_neg hfits, ?_⟩
    split at hfits
    · omega
    · omega

/-- A record that has room in the address space is appended. -/
theorem appendDumpRecord_some {output : DumpBuffer} {msg : Message}
    (h : output.bytes.length + (recordText msg).length + 1 ≤ 2 ^ 63) :
    ∃ capacity, appendDumpRecord output msg = some ⟨output.bytes ++ recordText msg, capacity⟩ := by
  obtain ⟨capacity, hroom, hle⟩ := roomFor_some h
  have hwrite : messageLogFormatRecord msg (capacity - output.bytes.length) = some (recordText msg) := if_pos (by omega)
  refine ⟨capacity, ?_⟩
  unfold appendDumpRecord
  rw [hroom, Option.bind_eq_bind, Option.bind_some, hwrite]
  rfl

/-- So are records, one after the other. -/
theorem foldlM_appendDumpRecord {records : List Message} {output : DumpBuffer}
    (h : output.bytes.length + (records.flatMap recordText).length + 1 ≤ 2 ^ 63) :
    ∃ capacity, records.foldlM appendDumpRecord output =
      some ⟨output.bytes ++ records.flatMap recordText, capacity⟩ := by
  induction records generalizing output with
  | nil => exact ⟨output.capacity, by simp⟩
  | cons msg records ih =>
    rw [List.flatMap_cons, List.length_append] at h
    obtain ⟨capacity, hfirst⟩ := @appendDumpRecord_some output msg (by omega)
    obtain ⟨capacity', hrest⟩ := @ih ⟨output.bytes ++ recordText msg, capacity⟩ (by rw [List.length_append]; omega)
    refine ⟨capacity', ?_⟩
    rw [List.foldlM_cons, hfirst, Option.bind_eq_bind, Option.bind_some, hrest, List.flatMap_cons, List.append_assoc]

/-! ## The counters -/

theorem intAdd_some {a b : Nat} (h : a + b < 2 ^ 31) : intAdd a b = some (a + b) :=
  if_pos (Nat.le_sub_one_of_lt h)

theorem foldlM_pushRing {records : List Message} {ring : BaseLib.Ring Message}
    (h : ring.seen + records.length < 2 ^ 31) :
    records.foldlM pushRing ring = some (records.foldl Ring.push ring) := by
  induction records generalizing ring with
  | nil => rfl
  | cons msg records ih =>
    rw [List.length_cons] at h
    have hpush : pushRing ring msg = some (ring.push msg) := by
      rw [pushRing, intAdd_some (by omega)]
      rfl
    rw [List.foldlM_cons, hpush, Option.bind_eq_bind, Option.bind_some, List.foldl_cons]
    apply ih
    show ring.seen + 1 + records.length < 2 ^ 31
    omega

/-- A loop over cells that are there is one over what is in them. -/
theorem foldlM_cells {α σ : Type} {f : σ → α → Option σ} {cell : Nat → Option α} {index : Nat → Option Nat}
    {place : Nat → Nat} {is : List Nat} (hindex : ∀ i ∈ is, index i = some (place i))
    (hcell : ∀ i ∈ is, (cell (place i)).isSome) (s : σ) :
    is.foldlM (fun s i => do
      let k ← index i
      let x ← cell k
      f s x) s = (is.filterMap fun i => cell (place i)).foldlM f s := by
  induction is generalizing s with
  | nil => rfl
  | cons i is ih =>
    obtain ⟨x, hx⟩ := Option.isSome_iff_exists.1 (hcell i List.mem_cons_self)
    rw [List.filterMap_cons, List.foldlM_cons, hindex i List.mem_cons_self]
    simp only [Option.bind_eq_bind, Option.bind_some, hx, List.foldlM_cons]
    refine congrArg _ (funext fun t => ?_)
    exact ih (fun j hj => hindex j (List.mem_cons_of_mem _ hj)) (fun j hj => hcell j (List.mem_cons_of_mem _ hj)) t

/-- The sum of two places stays below the number of records seen: behind a full ring, the start is what is left of
that number. -/
theorem start_add_lt {seen n i : Nat} (hn : 0 < n) (hi : i < if seen < n then seen else n) :
    (if seen < n then 0 else seen % n) + i < seen := by
  split
  · rw [if_pos ‹_›] at hi
    omega
  · rename_i hfull
    rw [if_neg hfull] at hi
    have hle : n ≤ seen := Nat.le_of_not_lt hfull
    have hdiv := Nat.div_add_mod seen n
    have hone : 1 ≤ seen / n := Nat.div_pos hle hn
    have hmul : n * 1 ≤ n * (seen / n) := Nat.mul_le_mul_left n hone
    omega

/-- What is read off the ring is appended. -/
theorem appendRing_eq {ring : BaseLib.Ring Message} {n : Nat} (hn : 0 < n) (hcells : ring.cells.length = n)
    (hseen : ring.seen < 2 ^ 31) : appendRing ring n = ring.read.foldlM appendDumpRecord ⟨[], 0⟩ := by
  have hread : ring.read = (List.range (if ring.seen < n then ring.seen else n)).filterMap fun i =>
      ring.cells[((if ring.seen < n then 0 else ring.seen % n) + i) % n]? := by
    rw [Ring.read, hcells]
  rw [hread]
  unfold appendRing
  refine @foldlM_cells _ _ _ (fun k => ring.cells[k % n]?) _ _ _ (fun i hi => ?_) (fun i hi => ?_) _
  · refine intAdd_some (Nat.lt_trans ?_ hseen)
    exact start_add_lt hn (List.mem_range.1 hi)
  · rw [Option.isSome_iff_exists]
    exact ⟨_, List.getElem?_eq_getElem (Nat.lt_of_lt_of_eq (Nat.mod_lt _ hn) hcells.symm)⟩

/-! ## The export -/

/-- A loop that does nothing once it has failed. -/
theorem foldl_bind {α σ : Type} (f : σ → α → Option σ) (l : List α) (o : Option σ) :
    l.foldl (fun o x => o.bind (f · x)) o = o.bind (l.foldlM f) := by
  induction l generalizing o with
  | nil => simp
  | cons x l ih =>
    rw [List.foldl_cons, ih, Option.bind_assoc]
    rfl

theorem readLoopM_records {σ : Type} (now : Int) (file : Bytes) (f : σ → Message → Option σ) (s : σ) :
    readLoopM now file f s = (acceptedRecords now file).foldlM f s := by
  unfold readLoopM
  rw [readLoop_records fun _ => rfl]
  exact foldl_bind f _ (some s)

theorem length_recordText_of_accepted {now : Int} {file : Bytes} {msg : Message} (h : msg ∈ acceptedRecords now file) :
    (recordText msg).length ≤ 1135 := by
  obtain ⟨line, -, hline⟩ := List.mem_filterMap.1 h
  simp only [readRound, Option.ite_none_left_eq_some] at hline
  have hformat := formatRecord_of_parse hline.2
  simp only [messageLogFormatRecord, Option.ite_none_right_eq_some] at hformat
  exact Nat.le_of_lt_succ hformat.1

variable {now : Int} {file : Bytes}

/-- Fewer than 2^31 records fit into the address space. -/
theorem length_dump_le {records : List Message} (h : ∀ m ∈ records, m ∈ acceptedRecords now file)
    (hcount : records.length < 2 ^ 31) : (records.flatMap recordText).length + 1 ≤ 2 ^ 63 := by
  have hsum := List.sum_le_card_nsmul (records.map fun m => (recordText m).length) 1135 fun n hn => by
    obtain ⟨m, hm, rfl⟩ := List.mem_map.1 hn
    exact length_recordText_of_accepted (h m hm)
  rw [List.length_map, Nat.nsmul_eq_mul] at hsum
  rw [List.length_flatMap]
  omega

/-- With fewer than 2^31 records the buffer grows as it must and no `int` overflows. -/
theorem messageDumpTextBuffered_eq (backup : Option Bytes) (maxRecords : Nat)
    (hcount : (acceptedRecords now file).length < 2 ^ 31) :
    messageDumpTextBuffered ⟨some file, backup⟩ maxRecords now =
      some (messageDumpText ⟨some file, backup⟩ maxRecords now) := by
  unfold messageDumpTextBuffered
  simp only
  rw [readLoopM_records, readLoopM_records]
  by_cases hmax : maxRecords > 0
  · obtain ⟨hcells, hseen, -⟩ := @Ring.foldl_push _ maxRecords zeroMessage hmax (acceptedRecords now file)
    rw [if_pos hmax, foldlM_pushRing (by simpa [Ring.fresh] using hcount), messageDumpText_limit _ hmax,
      Option.bind_eq_bind, Option.bind_some, hseen, appendRing_eq hmax hcells (hseen ▸ hcount), Ring.read_eq_rtake hmax]
    have hlast : ((acceptedRecords now file).rtake maxRecords).length < 2 ^ 31 := by
      rw [List.rtake, List.length_drop]
      omega
    have hbytes := @length_dump_le now file ((acceptedRecords now file).rtake maxRecords)
      (fun m hm => List.mem_of_mem_drop hm) hlast
    obtain ⟨capacity, hdump⟩ :=
      @foldlM_appendDumpRecord ((acceptedRecords now file).rtake maxRecords) ⟨[], 0⟩ (by simpa using hbytes)
    split
    · rw [hdump]
      rfl
    · rename_i hnone
      have hnil : acceptedRecords now file = [] := List.eq_nil_of_length_eq_zero (Nat.eq_zero_of_not_pos hnone)
      simp [LogDir.contents, hnil, List.rtake]
  · have hbytes := @length_dump_le now file _ (fun m hm => hm) hcount
    obtain ⟨capacity, hdump⟩ := @foldlM_appendDumpRecord (acceptedRecords now file) ⟨[], 0⟩ (by simpa using hbytes)
    rw [if_neg hmax, hdump, Nat.eq_zero_of_not_pos hmax, messageDumpText_all]
    rfl

/-- The bounded export, the full export, the search and the offline recovery go by the same records in the same
order. -/
theorem export_agree (now : Int) (file : Bytes) (backup : Option Bytes)
    (hcount : (acceptedRecords now file).length < 2 ^ 31) :
    messageDumpTextBuffered ⟨some file, backup⟩ 0 now = some ((acceptedRecords now file).flatMap recordText) ∧
      (∀ n, 0 < n → messageDumpTextBuffered ⟨some file, backup⟩ n now =
        some (((acceptedRecords now file).rtake n).flatMap recordText)) ∧
      (∀ query maxResults, query ≠ [] → 0 < maxResults → messageSearch ⟨some file, backup⟩ query maxResults now =
        ((acceptedRecords now file).filter (·.contains query)).rtake maxResults) ∧
      ∃ report, scanLog file true now = .ok (report, (acceptedRecords now file).flatMap recordText) := by
  have hread := readAs_acceptedRecords now file
  obtain ⟨report, hscan, -⟩ := hread.scan
  refine ⟨?_, fun n hn => ?_, hread.search backup, report, hscan⟩
  · rw [messageDumpTextBuffered_eq backup 0 hcount, hread.dump]
  · rw [messageDumpTextBuffered_eq backup n hcount, messageDumpText_limit _ hn]
    rfl

/-- A file with one record. -/
def bobFile : Bytes := lit "2025-07-14T13:33:20Z|bob|hello\n"

theorem export_agree_bob :
    messageDumpTextBuffered ⟨some bobFile, none⟩ 1 1752500000 =
      some (((acceptedRecords 1752500000 bobFile).rtake 1).flatMap recordText) :=
  (export_agree 1752500000 bobFile none (by decide)).2.1 1 Nat.one_pos

/-- Every text contains the empty query, for which the search returns nothing. -/
theorem search_empty :
    ¬ ∀ query maxResults, 0 < maxResults → messageSearch ⟨some bobFile, none⟩ query maxResults 1752500000 =
    ((acceptedRecords 1752500000 bobFile).filter (·.contains query)).rtake maxResults := by
  intro h
  have hnone := h [] 1 Nat.one_pos
  revert hnone
  decide

end Tnt
