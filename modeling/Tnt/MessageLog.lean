import Tnt.Common
import Tnt.Utf8
import Tnt.Lib.TimeFormat
/-!
# Records of `messages.log` (`message_log.c`)

`messageLogParseRecord` is the strict parser that replay, search and export
share, and `parseRecord_iff` says what it accepts. A record that
`messageLogFormatRecord` wrote is accepted and read back; one that something
stands in front of, or that lost bytes from its front, is not.
-/
open BaseLib

namespace Tnt

def MESSAGE_LOG_MAX_LINE : Nat := 2048

/-- `"%Y-%m-%dT%H:%M:%SZ"` -/
def timestampFormat : List Item :=
  [.conv .year, .lit 0x2D, .conv .month, .lit 0x2D, .conv .day, .lit 0x54,
    .conv .hour, .lit 0x3A, .conv .minute, .lit 0x3A, .conv .second, .lit 0x5A]

/-- `struct tm tm = {0}`: December 31 of the year before 1900. -/
def tmZero : Tm := ⟨1900, 1, 0, 0, 0, 0⟩

/-- `parse_rfc3339_utc`, with `-1` for what it does not accept. -/
def parseRfc3339Utc (timestampStr : Bytes) : Int :=
  match strptime timestampFormat tmZero timestampStr with
  | some (tm, []) => timegm tm
  | _ => -1

/-- `message_log_format_timestamp_utc` -/
def messageLogFormatTimestampUtc (ts : Int) : Bytes := strftime timestampFormat (gmtime ts)

/-- The replay window: ten years back and one day ahead. -/
def InWindow (now ts : Int) : Prop := ¬ (ts > now + 86400 ∨ ts < now - 31536000 * 10)

instance (now ts : Int) : Decidable (InWindow now ts) := inferInstanceAs (Decidable (¬ _))

/-- `message_log_parse_record` -/
def messageLogParseRecord (line : Bytes) (now : Int) : Option Message :=
  let lineLen := line.length
  if lineLen = 0 ∨ byteAt line (lineLen - 1) ≠ newline then none
  else if lineLen ≥ MESSAGE_LOG_MAX_LINE then none
  else
    match strchr line.dropLast bar with
    | none => none
    | some (timestampStr, rest) =>
      match strchr rest bar with
      | none => none
      | some (username, content) =>
        if bar ∈ content then none
        else if timestampStr = [] ∨ username = [] ∨ content = [] then none
        else if username.length ≥ MAX_USERNAME_LEN ∨ content.length ≥ MAX_MESSAGE_LEN then none
        else if !utf8IsValidString username || !utf8IsValidString content then none
        else
          let msgTime := parseRfc3339Utc timestampStr
          if msgTime = -1 then none
          else if ¬ InWindow now msgTime then none
          else some ⟨msgTime, CBuf.copy MAX_USERNAME_LEN username, CBuf.copy MAX_MESSAGE_LEN content⟩

/-- `"%s|%s|%s\n"` -/
def recordText (msg : Message) : Bytes :=
  messageLogFormatTimestampUtc msg.timestamp ++ bar :: msg.username.bytes ++ bar :: msg.content.bytes ++ [newline]

/-- `message_log_format_record`, for a buffer of `bufSize` bytes. -/
def messageLogFormatRecord (msg : Message) (bufSize : Nat) : Option Bytes :=
  if (recordText msg).length < bufSize then some (recordText msg) else none

/-! ## What the parser accepts -/

/-- A message that the parser can give back at time `now`. -/
structure Replayable (now : Int) (m : Message) : Prop where
  username_ne : m.username.bytes ≠ []
  content_ne : m.content.bytes ≠ []
  username_bar : bar ∉ m.username.bytes
  content_bar : bar ∉ m.content.bytes
  username_valid : utf8IsValidString m.username.bytes = true
  content_valid : utf8IsValidString m.content.bytes = true
  timestamp : m.timestamp ≠ -1
  window : InWindow now m.timestamp

theorem parseRecord_iff (line : Bytes) (now : Int) (m : Message) :
    messageLogParseRecord line now = some m ↔
      ∃ ts, line = ts ++ bar :: (m.username.bytes ++ bar :: (m.content.bytes ++ [newline])) ∧
        line.length < MESSAGE_LOG_MAX_LINE ∧ ts ≠ [] ∧ bar ∉ ts ∧ parseRfc3339Utc ts = m.timestamp ∧
        Replayable now m := by
  constructor
  · intro h
    simp only [messageLogParseRecord] at h
    split_ifs at h with h1 h2
    push Not at h1
    obtain ⟨body, rfl⟩ : ∃ body, line = body ++ [newline] := by
      have hne : line ≠ [] := List.ne_nil_of_length_pos (Nat.pos_of_ne_zero h1.1)
      refine ⟨line.dropLast, ?_⟩
      have hlast : line.getLast hne = newline := by
        rw [List.getLast_eq_getElem, ← h1.2]
        simp [byteAt, List.getD_eq_getElem?_getD, List.getElem?_eq_getElem (Nat.sub_one_lt h1.1)]
      rw [← hlast, List.dropLast_append_getLast]
    rw [List.dropLast_concat] at h
    rcases hs1 : strchr body bar with _ | ⟨ts, rest⟩
    · simp [hs1] at h
    · simp only [hs1] at h
      rcases hs2 : strchr rest bar with _ | ⟨username, content⟩
      · simp [hs2] at h
      · simp only [hs2] at h
        obtain ⟨rfl, hts⟩ := strchr_eq_some.1 hs1
        obtain ⟨rfl, hu⟩ := strchr_eq_some.1 hs2
        split_ifs at h with h3 h4 h5 h6 h7 h8
        push Not at h4 h5
        simp only [Bool.or_eq_true, Bool.not_eq_true', not_or, Bool.not_eq_false] at h6
        rw [Option.some.injEq] at h
        subst h
        have hun := @CBuf.copy_bytes MAX_USERNAME_LEN _ _ (valid_zero_notMem h6.1) h5.1
        have hcn := @CBuf.copy_bytes MAX_MESSAGE_LEN _ _ (valid_zero_notMem h6.2) h5.2
        refine ⟨ts, ?_, by omega, h4.1, hts, rfl, ?_⟩
        · simp [hun, hcn]
        · constructor <;> simp only [hun, hcn]
          exacts [h4.2.1, h4.2.2, hu, h3, h6.1, h6.2, h7, h8]
  · rintro ⟨ts, rfl, hlen, hts, htb, htime, hm⟩
    have h1 : strchr (ts ++ bar :: (m.username.bytes ++ bar :: m.content.bytes)) bar =
        some (ts, m.username.bytes ++ bar :: m.content.bytes) := strchr_eq_some.2 ⟨rfl, htb⟩
    have h2 : strchr (m.username.bytes ++ bar :: m.content.bytes) bar =
        some (m.username.bytes, m.content.bytes) := strchr_eq_some.2 ⟨rfl, hm.username_bar⟩
    have hline : ts ++ bar :: (m.username.bytes ++ bar :: (m.content.bytes ++ [newline])) =
        (ts ++ bar :: (m.username.bytes ++ bar :: m.content.bytes)) ++ [newline] := by simp
    rw [hline] at hlen ⊢
    have hlast (body : Bytes) : byteAt (body ++ [newline]) ((body ++ [newline]).length - 1) = newline := by
      simp [byteAt, List.getD_eq_getElem?_getD]
    simp only [messageLogParseRecord, hlast, List.dropLast_concat, h1, h2, htime]
    rw [if_neg (by simp), if_neg (by omega), if_neg hm.content_bar,
      if_neg (by simp [hts, hm.username_ne, hm.content_ne]),
      if_neg (by simp [m.username.fits, m.content.fits]), if_neg (by simp [hm.username_valid, hm.content_valid]),
      if_neg hm.timestamp, if_neg (not_not.2 hm.window)]
    simp

theorem parseRecord_eq_none_of_no_newline {line : Bytes} (h : newline ∉ line) (now : Int) :
    messageLogParseRecord line now = none := by
  rw [Option.eq_none_iff_forall_ne_some]
  intro m hm
  obtain ⟨ts, rfl, -⟩ := (parseRecord_iff _ _ _).1 hm
  simp at h

/-! ## Records that were written -/

/-- Timestamps whose year is written with four digits. -/
def FourDigitYear (ts : Int) : Prop := 1000 ≤ (gmtime ts).year ∧ (gmtime ts).year ≤ 9999

instance (ts : Int) : Decidable (FourDigitYear ts) := inferInstanceAs (Decidable (_ ∧ _))

/-- What the system clock shows from 1970 to the end of 9999. -/
def ClockTime (now : Int) : Prop := 0 ≤ now ∧ now < 253402300800

instance (now : Int) : Decidable (ClockTime now) := inferInstanceAs (Decidable (_ ∧ _))

theorem ClockTime.fourDigitYear {now : Int} (h : ClockTime now) : FourDigitYear now :=
  have hy := gmtime_year h.1 h.2
  ⟨by omega, hy.2⟩

theorem InWindow.refl (now : Int) : InWindow now now := by
  unfold InWindow
  omega

variable {ts : Int}

theorem length_timestamp (h : FourDigitYear ts) : (messageLogFormatTimestampUtc ts).length = 20 :=
  length_strftime (gmtime_fourDigit h) timestampFormat

/-- A timestamp is digits, `-`, `T`, `:` and `Z`. -/
theorem mem_timestamp {ts : Int} {b : UInt8} (hb : b ∈ messageLogFormatTimestampUtc ts) :
    0x2D ≤ b ∧ b ≤ 0x5A := by
  rcases mem_strftime hb with hb | rfl | hb
  · simp only [isDigit, Bool.and_eq_true, decide_eq_true_eq] at hb
    simp only [UInt8.le_iff_toNat_le, UInt8.reduceToNat] at hb ⊢
    omega
  · decide
  · simp only [timestampFormat, List.mem_cons, Item.lit.injEq, reduceCtorEq, List.not_mem_nil, false_or,
      or_false] at hb
    rcases hb with rfl | rfl | rfl | rfl | rfl | rfl <;> decide

theorem bar_notMem_timestamp (ts : Int) : bar ∉ messageLogFormatTimestampUtc ts :=
  fun hb => absurd (mem_timestamp hb).2 (by decide)

theorem timestamp_ne_nil (h : FourDigitYear ts) : messageLogFormatTimestampUtc ts ≠ [] :=
  List.ne_nil_of_length_pos (by rw [length_timestamp h]; decide)

/-- What is written as a timestamp is read as the same one. -/
theorem parse_timestamp (h : FourDigitYear ts) : parseRfc3339Utc (messageLogFormatTimestampUtc ts) = ts := by
  have hp := strptime_strftime (gmtime_fourDigit h) timestampFormat tmZero []
  rw [List.append_nil] at hp
  rw [parseRfc3339Utc, messageLogFormatTimestampUtc, hp]
  exact timegm_gmtime ts

/-- A written timestamp is its year and what stands behind it. -/
theorem timestamp_split (ts : Int) :
    ∃ rest, messageLogFormatTimestampUtc ts = Field.text .year (gmtime ts).year ++ rest ∧
    (∀ b ∈ rest.head?, isDigit b = false) ∧ ∀ v : Int,
      strptime (timestampFormat.drop 1) { tmZero with year := v } rest = some ({ gmtime ts with year := v }, []) := by
  refine ⟨strftime (timestampFormat.drop 1) (gmtime ts), rfl, fun b hb => ?_, fun v => ?_⟩
  · rw [show (strftime (timestampFormat.drop 1) (gmtime ts)).head? = some 0x2D from rfl, Option.mem_some_iff] at hb
    exact hb ▸ rfl
  · -- The other fields are read as they were written, whatever the year is.
    have h := gmtime_fields ts
    have hp := @strptime_strftime { gmtime ts with year := 2000 }
      ⟨by simp, h.1, h.2.1, h.2.2.1, h.2.2.2.1, h.2.2.2.2⟩ (timestampFormat.drop 1)
      { tmZero with year := v } []
    rw [List.append_nil] at hp
    exact hp

/-- Years of up to four digits are read as they are written. -/
theorem parse_timestamp_year (h : 0 ≤ (gmtime ts).year ∧ (gmtime ts).year ≤ 9999) :
    parseRfc3339Utc (messageLogFormatTimestampUtc ts) = ts := by
  obtain ⟨rest, htext, hhead, hfields⟩ := timestamp_split ts
  obtain ⟨y, hy⟩ : ∃ y, y = (gmtime ts).year := ⟨_, rfl⟩
  rw [← hy] at h htext
  have hyear : Field.text .year y = decimal y.toNat := if_neg (Int.not_lt.2 h.1)
  have hnumber : number 4 0 9999 (decimal y.toNat ++ rest) = some (y.toNat, rest) := by
    rw [number_append 0 9999 (decimal_ne_nil _) (fun b hb => isDigit_of_mem_decimal hb)
      (@length_decimal_le _ 3 (by omega)) _
      (.inr hhead), digitsVal_decimal]
    exact if_pos (by omega)
  have hp : strptime timestampFormat tmZero (decimal y.toNat ++ rest) = some (gmtime ts, []) := by
    have hf := hfields (gmtime ts).year
    apply (@strptime_conv .year _ _ _ _ _ hnumber).trans
    rw [show ((y.toNat : Nat) : Int) = (gmtime ts).year by omega]
    exact hf
  rw [htext, hyear, parseRfc3339Utc, hp]
  exact timegm_gmtime ts

theorem parse_timestamp_negative (h : (gmtime ts).year < 0) :
    parseRfc3339Utc (messageLogFormatTimestampUtc ts) = -1 := by
  obtain ⟨rest, htext, -, -⟩ := timestamp_split ts
  have hyear : Field.text .year (gmtime ts).year = 0x2D :: decimal (gmtime ts).year.natAbs := if_pos h
  have hp : strptime timestampFormat tmZero (0x2D :: (decimal (gmtime ts).year.natAbs ++ rest)) = none :=
    strptime_conv_none (number_cons_of_not_digit (by decide) _)
  rw [htext, hyear, List.cons_append, parseRfc3339Utc, hp]

/-- Of a longer year the conversion takes four digits, and behind them is another one. -/
theorem parse_timestamp_late (h : 9999 < (gmtime ts).year) :
    parseRfc3339Utc (messageLogFormatTimestampUtc ts) = -1 := by
  obtain ⟨rest, htext, -, -⟩ := timestamp_split ts
  obtain ⟨y, hy⟩ : ∃ y, y = (gmtime ts).year := ⟨_, rfl⟩
  rw [← hy] at h htext
  have hyear : Field.text .year y = decimal y.toNat := if_neg (by omega)
  have hdigits : ∀ b ∈ decimal y.toNat, isDigit b = true := fun b hb => isDigit_of_mem_decimal hb
  obtain ⟨ds, c, t, hds, hlen⟩ : ∃ ds c t, decimal y.toNat = ds ++ c :: t ∧ ds.length = 4 := by
    have h4 := @lt_length_decimal y.toNat 4 (by omega)
    exact ⟨(decimal y.toNat).take 4, (decimal y.toNat)[4], (decimal y.toNat).drop 5,
      by rw [List.getElem_cons_drop, List.take_append_drop], List.length_take_of_le h4.le⟩
  rw [hds] at hdigits hyear
  have hne : c ≠ 0x2D := by
    rintro rfl
    exact absurd (hdigits 0x2D (by simp)) (by decide)
  have hp : strptime timestampFormat tmZero (ds ++ c :: t ++ rest) = none := by
    have hnumber := number_append 0 9999 (List.ne_nil_of_length_pos (hlen ▸ by decide))
      (fun b hb => hdigits b (List.mem_append_left _ hb)) hlen.le (c :: (t ++ rest)) (.inl hlen)
    rw [List.append_assoc, List.cons_append]
    split at hnumber
    · exact (@strptime_conv .year _ _ _ _ _ hnumber).trans (strptime_lit_ne hne _ _ _)
    · exact @strptime_conv_none .year _ _ _ hnumber
  rw [htext, hyear, parseRfc3339Utc, hp]

/-- Whatever the time is, what is written as a timestamp is read as the same one or refused. -/
theorem parse_timestamp_cases (ts : Int) : parseRfc3339Utc (messageLogFormatTimestampUtc ts) = ts ∨
    parseRfc3339Utc (messageLogFormatTimestampUtc ts) = -1 := by
  rcases Int.lt_or_le (gmtime ts).year 0 with hneg | hpos
  · exact .inr (parse_timestamp_negative hneg)
  · rcases Int.lt_or_le 9999 (gmtime ts).year with hlate | hle
    · exact .inr (parse_timestamp_late hlate)
    · exact .inl (parse_timestamp_year ⟨hpos, hle⟩)

/-- An accepted timestamp is at most as long as a written one. -/
theorem length_of_parse {s : Bytes} (h : parseRfc3339Utc s ≠ -1) : s.length ≤ 20 := by
  unfold parseRfc3339Utc at h
  split at h
  · rename_i tm hp
    simpa [formatWidth, timestampFormat, Field.width] using strptime_length hp
  · exact absurd rfl h

/-- Only the year of a timestamp has no fixed width. -/
theorem length_timestamp_year (ts : Int) :
    (messageLogFormatTimestampUtc ts).length = (Field.text .year (gmtime ts).year).length + 16 := by
  obtain ⟨hm, hd, hh, hmi, hs⟩ := gmtime_fields ts
  have htwo {v : Int} (h : v ≤ 99) : (twoDigits v.toNat).length = 2 := by
    rw [twoDigits_lt (by omega)]
    rfl
  simp only [messageLogFormatTimestampUtc, strftime, timestampFormat, List.flatMap_cons, List.flatMap_nil,
    List.length_append, List.length_cons, List.length_nil, Field.get]
  simp only [Field.text, htwo (show (gmtime ts).month ≤ 99 by omega), htwo (show (gmtime ts).day ≤ 99 by omega),
    htwo (show (gmtime ts).hour ≤ 99 by omega), htwo (show (gmtime ts).minute ≤ 99 by omega),
    htwo (show (gmtime ts).second ≤ 99 by omega)]

/-- An accepted timestamp is written in at most 21 bytes. -/
theorem length_timestamp_of_parse {s : Bytes} (h : parseRfc3339Utc s ≠ -1) :
    (messageLogFormatTimestampUtc (parseRfc3339Utc s)).length ≤ 21 := by
  unfold parseRfc3339Utc at h ⊢
  split at h
  · rename_i tm hp
    have hrange (f : Field) : tm.InRange f := strptime_range hp (.inl (by cases f <;> decide))
    have hy := hrange .year
    have hyear := gmtime_timegm_year (hrange .month) (hrange .day) (hrange .hour) (hrange .minute) (hrange .second)
    simp only [Tm.InRange, Field.range, Field.get] at hy
    rw [length_timestamp_year]
    have htext : (Field.text .year (gmtime (timegm tm)).year).length ≤ 5 := by
      simp only [Field.text]
      split
      · have := @length_decimal_le (gmtime (timegm tm)).year.natAbs 0 (by omega)
        rw [List.length_cons]
        omega
      · exact @length_decimal_le (gmtime (timegm tm)).year.toNat 4 (by omega)
    omega
  · exact absurd rfl h

/-- A written timestamp that lost bytes from its front is refused or lies centuries back. -/
theorem parse_timestamp_drop (h : FourDigitYear ts) {k : Nat} (hk : 1 ≤ k) :
    parseRfc3339Utc ((messageLogFormatTimestampUtc ts).drop k) = -1 ∨
      parseRfc3339Utc ((messageLogFormatTimestampUtc ts).drop k) ≤ ts - 86400 * (365 * 1000 - 3) := by
  have hf := gmtime_fourDigit h
  obtain ⟨y, hy⟩ : ∃ y, y = (gmtime ts).year.toNat := ⟨_, rfl⟩
  have hy1 : 1000 ≤ y ∧ y ≤ 9999 := by have := hf.year; omega
  obtain ⟨rest, hrest⟩ : ∃ rest, rest = strftime (timestampFormat.drop 2) (gmtime ts) := ⟨_, rfl⟩
  have htext : messageLogFormatTimestampUtc ts =
      [digit (y / 1000), digit (y / 100), digit (y / 10), digit y] ++ 0x2D :: rest := by
    rw [← decimal_four hy1.1 hy1.2, hrest, hy]
    have hyear : Field.year.text (gmtime ts).year = decimal (gmtime ts).year.toNat :=
      if_neg (show ¬ (gmtime ts).year < 0 by have := hf.year; omega)
    rw [← hyear]
    rfl
  -- The year keeps the digits `ds`; the fields behind it are read as they were written.
  have hyear (ds : Bytes) (hne : ds ≠ []) (hlen : ds.length ≤ 4) (hds : ∀ b ∈ ds, isDigit b = true)
      (hval : digitsVal ds + 1000 ≤ y) :
      parseRfc3339Utc (ds ++ 0x2D :: rest) ≤ ts - 86400 * (365 * 1000 - 3) := by
    have hn : number 4 0 9999 (ds ++ 0x2D :: rest) = some (digitsVal ds, 0x2D :: rest) := by
      rw [number_append 0 9999 hne hds hlen _ (.inr (by simp [isDigit]))]
      exact if_pos (by omega)
    have hp := strptime_strftime hf (timestampFormat.drop 2) { tmZero with year := digitsVal ds } []
    rw [← hrest, List.append_nil] at hp
    have ht : parseRfc3339Utc (ds ++ 0x2D :: rest) = timegm { gmtime ts with year := digitsVal ds } := by
      have hstep : strptime timestampFormat tmZero (ds ++ 0x2D :: rest) =
          strptime (timestampFormat.drop 2) { tmZero with year := digitsVal ds } rest := by
        simp only [timestampFormat, strptime, Field.width, Field.range, hn, if_true, List.drop_succ_cons,
          List.drop_zero]
        rfl
      rw [parseRfc3339Utc, hstep, hp]
      rfl
    have hle := timegm_year_le (gmtime ts) (digitsVal ds) (by omega)
    rw [timegm_gmtime] at hle
    rw [ht]
    apply hle.trans
    omega
  rw [htext]
  have hcases : k = 1 ∨ k = 2 ∨ k = 3 ∨ k = 4 ∨ ∃ j, k = j + 5 := by
    rcases Nat.lt_or_ge k 5 with hlt | hge
    · omega
    · exact .inr (.inr (.inr (.inr ⟨k - 5, by omega⟩)))
  rcases hcases with rfl | rfl | rfl | rfl | ⟨k, rfl⟩
  · refine .inr (hyear [digit (y / 100), digit (y / 10), digit y] (by simp) (by simp) (by simp) ?_)
    simp only [digitsVal, List.foldl_cons, List.foldl_nil, digitVal_digit]
    omega
  · refine .inr (hyear [digit (y / 10), digit y] (by simp) (by simp) (by simp) ?_)
    simp only [digitsVal, List.foldl_cons, List.foldl_nil, digitVal_digit]
    omega
  · refine .inr (hyear [digit y] (by simp) (by simp) (by simp) ?_)
    simp only [digitsVal, List.foldl_cons, List.foldl_nil, digitVal_digit]
    omega
  · left
    have hn : number 4 0 9999 (0x2D :: rest) = none := number_cons_of_not_digit (by decide) rest
    simp [parseRfc3339Utc, timestampFormat, strptime, Field.width, Field.range, hn]
  · left
    -- The format has two `-`, and at most one is left.
    unfold parseRfc3339Utc
    split
    · rename_i tm hp
      have hc := strptime_count hp 0x2D
      have hr : (rest.drop k).count 0x2D ≤ 1 := by
        refine ((List.drop_sublist k rest).count_le _).trans (le_of_eq ?_)
        rw [hrest, count_strftime hf _ (by decide)]
        decide
      have hfmt : timestampFormat.count (.lit 0x2D) = 2 := by decide
      rw [hfmt, show ([digit (y / 1000), digit (y / 100), digit (y / 10), digit y] ++ 0x2D :: rest).drop (k + 5) =
        rest.drop k from rfl] at hc
      omega
    · rfl

variable {m : Message} {now : Int}

theorem recordText_eq (m : Message) : recordText m =
    messageLogFormatTimestampUtc m.timestamp ++
      bar :: (m.username.bytes ++ bar :: (m.content.bytes ++ [newline])) := by
  simp [recordText]

theorem length_recordText (h : FourDigitYear m.timestamp) :
    (recordText m).length = m.username.bytes.length + m.content.bytes.length + 23 := by
  simp only [recordText_eq, List.length_append, List.length_cons, List.length_nil, length_timestamp h]
  omega

theorem length_recordText_le (h : FourDigitYear m.timestamp) : (recordText m).length ≤ 1109 := by
  have hu := m.username.fits
  have hc := m.content.fits
  simp only [MAX_USERNAME_LEN, MAX_MESSAGE_LEN] at hu hc
  rw [length_recordText h]
  omega

/-- A record that was written is accepted and read back. -/
theorem parse_recordText (h : FourDigitYear m.timestamp) (hm : Replayable now m) :
    messageLogParseRecord (recordText m) now = some m := by
  rw [parseRecord_iff]
  have hlen := length_recordText_le h
  exact ⟨_, recordText_eq m, by rw [MESSAGE_LOG_MAX_LINE]; omega, timestamp_ne_nil h, bar_notMem_timestamp _,
    parse_timestamp h, hm⟩

/-- Whatever the time is, the parser takes no other message from a record that was written. -/
theorem eq_of_parse_recordText {m' : Message} (hu : bar ∉ m.username.bytes)
    (h : messageLogParseRecord (recordText m) now = some m') : m' = m := by
  obtain ⟨ts', heq, -, -, hb, htime, hr⟩ := (parseRecord_iff _ _ _).1 h
  have h1 := strchr_eq_some.2 ⟨recordText_eq m, bar_notMem_timestamp _⟩
  rw [strchr_eq_some.2 ⟨heq, hb⟩, Option.some.injEq, Prod.mk.injEq] at h1
  obtain ⟨rfl, h2⟩ := h1
  have h3 := strchr_eq_some.2 ⟨h2.symm, hr.username_bar⟩
  rw [strchr_eq_some.2 ⟨rfl, hu⟩, Option.some.injEq, Prod.mk.injEq] at h3
  ext1
  · rcases parse_timestamp_cases m.timestamp with hts | hts
    · exact htime.symm.trans hts
    · exact absurd (htime.symm.trans hts) hr.timestamp
  · exact CBuf.ext h3.1.symm
  · exact CBuf.ext (List.append_cancel_right h3.2).symm

theorem parse_recordText_iff (h : FourDigitYear m.timestamp) (hu : bar ∉ m.username.bytes) :
    (∃ m', messageLogParseRecord (recordText m) now = some m') ↔ Replayable now m := by
  refine ⟨fun ⟨m', hm'⟩ => ?_, fun hm => ⟨m, parse_recordText h hm⟩⟩
  obtain ⟨-, -, -, -, -, -, hr⟩ := (parseRecord_iff _ _ _).1 hm'
  exact eq_of_parse_recordText hu hm' ▸ hr

/-- The first `|` of a line that starts like a record ends the timestamp. -/
theorem timestamp_of_parse {a rest : Bytes} {m' : Message} (ha : bar ∉ a)
    (h : messageLogParseRecord (a ++ bar :: rest) now = some m') : parseRfc3339Utc a = m'.timestamp := by
  obtain ⟨ts', heq, -, -, hb, htime, -⟩ := (parseRecord_iff _ _ _).1 h
  have h1 := strchr_eq_some.2 ⟨heq, hb⟩
  rw [strchr_eq_some.2 ⟨rfl, ha⟩, Option.some.injEq, Prod.mk.injEq] at h1
  rw [h1.1, htime]

/-- An accepted line holds two `|`. -/
theorem count_bar_of_parse {line : Bytes} {m' : Message} (h : messageLogParseRecord line now = some m') :
    line.count bar = 2 := by
  obtain ⟨ts', rfl, -, -, hb, -, hr⟩ := (parseRecord_iff _ _ _).1 h
  simp only [List.count_append, List.count_cons_self, List.count_eq_zero.2 hb, List.count_eq_zero.2 hr.username_bar,
    List.count_eq_zero.2 hr.content_bar]
  rfl

theorem count_bar_recordText (hu : bar ∉ m.username.bytes)
    (hc : bar ∉ m.content.bytes) : (recordText m).count bar = 2 := by
  simp only [recordText_eq, List.count_append, List.count_cons_self, List.count_eq_zero.2 (bar_notMem_timestamp _),
    List.count_eq_zero.2 hu, List.count_eq_zero.2 hc]
  rfl

/-- A record with anything in front of it is not accepted. -/
theorem parse_front (h : FourDigitYear m.timestamp) (hu : bar ∉ m.username.bytes) (hc : bar ∉ m.content.bytes)
    {a : Bytes} (ha : a ≠ []) : messageLogParseRecord (a ++ recordText m) now = none := by
  rw [Option.eq_none_iff_forall_ne_some]
  intro m' hm'
  have hcount := count_bar_of_parse hm'
  rw [List.count_append, count_bar_recordText hu hc] at hcount
  have hbar : bar ∉ a := List.count_eq_zero.1 (by omega)
  rw [recordText_eq, ← List.append_assoc] at hm'
  have htime := timestamp_of_parse (by simp [hbar, bar_notMem_timestamp _]) hm'
  obtain ⟨-, -, -, -, -, -, hr⟩ := (parseRecord_iff _ _ _).1 hm'
  have hlen := length_of_parse (htime ▸ hr.timestamp)
  rw [List.length_append, length_timestamp h] at hlen
  exact ha (List.eq_nil_of_length_eq_zero (by omega))

/-- A record that lost bytes from its front is not accepted. -/
theorem parse_drop (h : FourDigitYear m.timestamp) (hu : bar ∉ m.username.bytes) (hc : bar ∉ m.content.bytes)
    (hw : InWindow now m.timestamp) {k : Nat} (hk : 1 ≤ k) :
    messageLogParseRecord ((recordText m).drop k) now = none := by
  rw [Option.eq_none_iff_forall_ne_some]
  intro m' hm'
  obtain ⟨-, -, -, -, -, -, hr⟩ := (parseRecord_iff _ _ _).1 hm'
  rcases Nat.lt_or_ge 20 k with hk20 | hk20
  · -- The first `|` is gone.
    have hcount := count_bar_of_parse hm'
    have hle := (List.drop_suffix (k - 21) ((recordText m).drop 21)).sublist.count_le bar
    rw [List.drop_drop, show 21 + (k - 21) = k by omega, hcount] at hle
    have hdrop : (recordText m).drop 21 = m.username.bytes ++ bar :: (m.content.bytes ++ [newline]) := by
      rw [recordText_eq, List.drop_append, length_timestamp h,
        List.drop_of_length_le (by rw [length_timestamp h]; omega)]
      rfl
    rw [hdrop, List.count_append, List.count_cons_self, List.count_append, List.count_eq_zero.2 hu,
      List.count_eq_zero.2 hc] at hle
    exact absurd hle (by decide)
  · rw [recordText_eq, List.drop_append_of_le_length (by rw [length_timestamp h]; omega)] at hm'
    have htime := timestamp_of_parse (fun hb => bar_notMem_timestamp _ (List.mem_of_mem_drop hb)) hm'
    have hwin := hr.window
    simp only [InWindow] at hw hwin
    rcases parse_timestamp_drop h hk with h1 | h1
    · exact hr.timestamp (htime ▸ h1)
    · omega

end Tnt
