import Tnt.MessageLog
/-!
# The documented grammar of a record (`docs/MESSAGE_LOG.md`)

The document asks for strict timestamps, of two digits a field. The parser leaves
them to `strptime` and `timegm`, which also take fewer digits, a 60th second and
days behind the end of a month. `parser_is_grammar_iff` says for which lines the
two agree.
-/
open BaseLib

namespace Tnt

/-- `messages.log` v1: the line is the record of `m`, with a timestamp in full width of an instant that
exists and lies in the window. -/
def Documented (now : Int) (line : Bytes) (m : Message) : Prop :=
  ∃ tm : Tm, tm.Real ∧ (0 ≤ tm.year ∧ tm.year ≤ 9999) ∧ timegm tm = m.timestamp ∧ InWindow now m.timestamp ∧
    line = fullTime timestampFormat tm ++ bar :: (m.username.bytes ++ bar :: (m.content.bytes ++ [newline])) ∧
    m.username.bytes ≠ [] ∧ m.content.bytes ≠ [] ∧ bar ∉ m.username.bytes ∧ bar ∉ m.content.bytes ∧
    utf8IsValidString m.username.bytes = true ∧ utf8IsValidString m.content.bytes = true

/-- The parser accepts the line if it is documented, and writing the record gives the line back. -/
def ParsedAsDocumented (now : Int) (line : Bytes) : Prop :=
  ((∃ m, messageLogParseRecord line now = some m) ↔ ∃ m, Documented now line m) ∧
    ∀ m, messageLogParseRecord line now = some m → recordText m = line

/-- The text of a timestamp is in full width, its day exists and its second is not the 60th. -/
def Strict (s : Bytes) (tm : Tm) : Prop :=
  s.length = 20 ∧ tm.day ≤ daysInMonth tm.year tm.month ∧ tm.second ≤ 59

/-- A line with two bars whose username and content are as documented. -/
structure FieldsOk (line s username content : Bytes) : Prop where
  line : line = s ++ bar :: (username ++ bar :: (content ++ [newline]))
  bars : bar ∉ s ∧ bar ∉ username ∧ bar ∉ content
  username : username ≠ [] ∧ username.length < MAX_USERNAME_LEN ∧ utf8IsValidString username = true
  content : content ≠ [] ∧ content.length < MAX_MESSAGE_LEN ∧ utf8IsValidString content = true

variable {now : Int} {line s : Bytes} {tm : Tm} {m : Message}

/-! ## Strict timestamps -/

theorem strptime_inRange (h : strptime timestampFormat tmZero s = some (tm, [])) (f : Field) : tm.InRange f :=
  strptime_range h (.inl (by cases f <;> decide))

/-- What `strptime` reads from a strict text is an instant, and the text is its full one. -/
theorem Strict.spec (hs : Strict s tm) (h : strptime timestampFormat tmZero s = some (tm, [])) :
    tm.Real ∧ (0 ≤ tm.year ∧ tm.year ≤ 9999) ∧ s = fullTime timestampFormat tm := by
  have hmonth := strptime_inRange h .month
  have hday := strptime_inRange h .day
  have hhour := strptime_inRange h .hour
  have hminute := strptime_inRange h .minute
  have hsecond := strptime_inRange h .second
  have hyear := strptime_inRange h .year
  obtain ⟨hlen, hd, hsec⟩ := hs
  refine ⟨⟨hmonth, ⟨hday.1, hd⟩, hhour, hminute, ⟨hsecond.1, hsec⟩⟩, hyear, ?_⟩
  have hfull := eq_fullTime h (by simp [timestampFormat]) (by rw [hlen]; decide)
  rwa [List.append_nil] at hfull

/-- The full text of an instant is strict, and read as it. -/
theorem strict_fullTime (hr : tm.Real) (hy : 0 ≤ tm.year ∧ tm.year ≤ 9999) :
    Strict (fullTime timestampFormat tm) tm ∧
      strptime timestampFormat tmZero (fullTime timestampFormat tm) = some (tm, []) := by
  have hday := daysInMonth_le tm.year tm.month
  have hrange : ∀ f, tm.InRange f := by
    obtain ⟨hm, hd, hh, hmi, hs⟩ := hr
    intro f
    cases f <;> simp only [Tm.InRange, Field.range, Field.get] <;> omega
  have hp := strptime_fullTime hrange timestampFormat tmZero []
  rw [List.append_nil] at hp
  exact ⟨⟨rfl, hr.day.2, hr.second.2⟩, hp⟩

/-- From the year 1000 on, a strict text is the one that is written. -/
theorem Strict.timestamp_eq (hs : Strict s tm) (h : strptime timestampFormat tmZero s = some (tm, [])) :
    s = messageLogFormatTimestampUtc (timegm tm) ↔ 1000 ≤ tm.year := by
  obtain ⟨hr, hy, hfull⟩ := hs.spec h
  constructor
  · intro heq
    by_contra hlt
    have hlen := length_timestamp_year (timegm tm)
    have hdecimal := @length_decimal_le tm.year.toNat 2 (by omega)
    have htext : Field.year.text tm.year = decimal tm.year.toNat := if_neg (show ¬ tm.year < 0 by omega)
    rw [← heq, hs.1, gmtime_timegm hr, htext] at hlen
    omega
  · intro hge
    have hday := daysInMonth_le tm.year tm.month
    rw [messageLogFormatTimestampUtc, gmtime_timegm hr, hfull]
    exact (strftime_eq_fullTime
      ⟨⟨hge, hy.2⟩, hr.month, ⟨hr.day.1, hr.day.2.trans hday⟩, hr.hour, hr.minute, hr.second⟩ _).symm

/-! ## What the parser makes of a line -/

theorem bar_notMem_fullTime (tm : Tm) : bar ∉ fullTime timestampFormat tm := by
  intro h
  rcases mem_fullTime h with h | h
  · exact absurd h (by decide)
  · exact absurd h (by decide)

theorem parseRfc3339Utc_some (h : strptime timestampFormat tmZero s = some (tm, [])) :
    parseRfc3339Utc s = timegm tm := by
  rw [parseRfc3339Utc, h]

/-- The fields of an accepted line, and the instant of its timestamp. -/
theorem fieldsOk_of_parse (h : messageLogParseRecord line now = some m) :
    ∃ s tm, FieldsOk line s m.username.bytes m.content.bytes ∧ strptime timestampFormat tmZero s = some (tm, []) ∧
      timegm tm = m.timestamp ∧ m.timestamp ≠ -1 ∧ InWindow now m.timestamp := by
  obtain ⟨s, hline, -, -, hbar, htime, hr⟩ := (parseRecord_iff _ _ _).1 h
  have hts := hr.timestamp
  obtain ⟨tm, hp⟩ : ∃ tm, strptime timestampFormat tmZero s = some (tm, []) := by
    rw [← htime, parseRfc3339Utc] at hts
    split at hts
    · exact ⟨_, ‹_›⟩
    · exact absurd rfl hts
  refine ⟨s, tm, ⟨hline, ⟨hbar, hr.username_bar, hr.content_bar⟩, ?_, ?_⟩, hp, ?_, hts, hr.window⟩
  · exact ⟨hr.username_ne, m.username.fits, hr.username_valid⟩
  · exact ⟨hr.content_ne, m.content.fits, hr.content_valid⟩
  · rw [← htime, parseRfc3339Utc_some hp]

/-- The message that a line with documented fields would be. -/
theorem FieldsOk.message {username content : Bytes} (hf : FieldsOk line s username content) (ts : Int) :
    ∃ m : Message, m.timestamp = ts ∧ m.username.bytes = username ∧ m.content.bytes = content :=
  ⟨⟨ts, CBuf.copy _ username, CBuf.copy _ content⟩, rfl,
    CBuf.copy_bytes (valid_zero_notMem hf.username.2.2) hf.username.2.1,
    CBuf.copy_bytes (valid_zero_notMem hf.content.2.2) hf.content.2.1⟩

/-- Such a line is accepted when its timestamp is read as a time in the window, and no error. -/
theorem parse_of_fieldsOk {username content : Bytes} (hf : FieldsOk line s username content)
    (hp : strptime timestampFormat tmZero s = some (tm, [])) (hts : timegm tm ≠ -1) (hw : InWindow now (timegm tm)) :
    ∃ m, messageLogParseRecord line now = some m := by
  obtain ⟨m, htime, rfl, rfl⟩ := hf.message (timegm tm)
  have hrfc := parseRfc3339Utc_some hp
  have hlen := length_of_parse (hrfc ▸ hts)
  refine ⟨m, (parseRecord_iff _ _ _).2 ⟨s, hf.line, ?_, ?_, hf.bars.1, hrfc.trans htime.symm, ?_⟩⟩
  · have hu := m.username.fits
    have hc := m.content.fits
    rw [hf.line]
    simp only [List.length_append, List.length_cons, List.length_nil, MAX_USERNAME_LEN, MAX_MESSAGE_LEN,
      MESSAGE_LOG_MAX_LINE] at hu hc ⊢
    omega
  · rintro rfl
    exact absurd (hrfc.symm.trans (by decide)) hts
  · exact ⟨hf.username.1, hf.content.1, hf.bars.2.1, hf.bars.2.2, hf.username.2.2, hf.content.2.2, htime ▸ hts,
      htime ▸ hw⟩

/-- Such a line with a strict timestamp is documented. -/
theorem documented_of_fieldsOk {username content : Bytes} (hf : FieldsOk line s username content)
    (hp : strptime timestampFormat tmZero s = some (tm, [])) (hs : Strict s tm) (hw : InWindow now (timegm tm)) :
    ∃ m, Documented now line m := by
  obtain ⟨m, htime, rfl, rfl⟩ := hf.message (timegm tm)
  obtain ⟨hr, hy, hfull⟩ := hs.spec hp
  exact ⟨m, tm, hr, hy, htime.symm, htime.symm ▸ hw, hfull ▸ hf.line, hf.username.1, hf.content.1, hf.bars.2.1,
    hf.bars.2.2, hf.username.2.2, hf.content.2.2⟩

theorem fieldsOk_of_documented (h : Documented now line m) :
    ∃ tm, FieldsOk line (fullTime timestampFormat tm) m.username.bytes m.content.bytes ∧
      strptime timestampFormat tmZero (fullTime timestampFormat tm) = some (tm, []) ∧
      Strict (fullTime timestampFormat tm) tm ∧ InWindow now (timegm tm) := by
  obtain ⟨tm, hr, hy, htime, hw, hline, hu, hc, hub, hcb, huv, hcv⟩ := h
  obtain ⟨hs, hp⟩ := strict_fullTime hr hy
  exact ⟨tm, ⟨hline, ⟨bar_notMem_fullTime tm, hub, hcb⟩, ⟨hu, m.username.fits, huv⟩, ⟨hc, m.content.fits, hcv⟩⟩, hp, hs,
    htime ▸ hw⟩

/-- The parser accepts just the documented lines, and they are what is written again, if and only if
the timestamp of a line that can be read otherwise is strict, of a year that is written with four
digits, and not the second that stands for an error. -/
theorem parser_is_grammar_iff (now : Int) (line : Bytes) :
    ParsedAsDocumented now line ↔ ∀ s username content tm, FieldsOk line s username content →
      strptime timestampFormat tmZero s = some (tm, []) → InWindow now (timegm tm) →
        if timegm tm = -1 then ¬ Strict s tm else Strict s tm ∧ 1000 ≤ tm.year := by
  constructor
  · rintro ⟨hiff, hformat⟩ s username content tm hf hp hw
    split
    · -- The line would be documented, and is not accepted.
      rename_i hts
      intro hs
      obtain ⟨m, hm⟩ := hiff.2 (documented_of_fieldsOk hf hp hs hw)
      obtain ⟨-, -, -, -, -, -, hr⟩ := (parseRecord_iff _ _ _).1 hm
      rw [hf.line] at hm
      exact hr.timestamp ((timestamp_of_parse hf.bars.1 hm).symm.trans ((parseRfc3339Utc_some hp).trans hts))
    · rename_i hts
      obtain ⟨m, hm⟩ := parse_of_fieldsOk hf hp hts hw
      obtain ⟨m', hdoc⟩ := hiff.1 ⟨m, hm⟩
      obtain ⟨tm', hf', hp', hs', -⟩ := fieldsOk_of_documented hdoc
      obtain ⟨rfl, -⟩ := append_byte_inj hf.bars.1 hf'.bars.1 (hf.line.symm.trans hf'.line)
      obtain rfl : tm' = tm := by
        rw [hp, Option.some.injEq, Prod.mk.injEq] at hp'
        exact hp'.1.symm
      refine ⟨hs', (hs'.timestamp_eq hp').1 ?_⟩
      have hrecord := hformat m hm
      have htime : parseRfc3339Utc (fullTime timestampFormat tm') = m.timestamp :=
        timestamp_of_parse hf.bars.1 (hf.line ▸ hm)
      rw [recordText_eq, hf.line, ← htime, parseRfc3339Utc_some hp] at hrecord
      exact (append_byte_inj (bar_notMem_timestamp _) hf.bars.1 hrecord).1.symm
  · intro h
    refine ⟨⟨?_, ?_⟩, ?_⟩
    · rintro ⟨m, hm⟩
      obtain ⟨s, tm, hf, hp, htime, hts, hw⟩ := fieldsOk_of_parse hm
      have hstrict := h s _ _ tm hf hp (htime ▸ hw)
      rw [if_neg (htime ▸ hts)] at hstrict
      exact documented_of_fieldsOk hf hp hstrict.1 (htime ▸ hw)
    · rintro ⟨m, hdoc⟩
      obtain ⟨tm, hf, hp, hs, hw⟩ := fieldsOk_of_documented hdoc
      have hstrict := h _ _ _ tm hf hp hw
      split at hstrict
      · exact absurd hs hstrict
      · exact parse_of_fieldsOk hf hp ‹_› hw
    · intro m hm
      obtain ⟨s, tm, hf, hp, htime, hts, hw⟩ := fieldsOk_of_parse hm
      have hstrict := h s _ _ tm hf hp (htime ▸ hw)
      rw [if_neg (htime ▸ hts)] at hstrict
      rw [recordText_eq, hf.line, ← htime, ← (hstrict.1.timestamp_eq hp).2 hstrict.2]

/-- A month of one digit is accepted, and written with two. -/
theorem parser_takes_short_month : ¬ ParsedAsDocumented 1752500000 (lit "2025-7-14T13:33:20Z|ann|hi\n") := by
  intro h
  have hm : messageLogParseRecord (lit "2025-7-14T13:33:20Z|ann|hi\n") 1752500000 =
      some ⟨1752500000, CBuf.copy MAX_USERNAME_LEN (lit "ann"), CBuf.copy MAX_MESSAGE_LEN (lit "hi")⟩ := by
    decide
  exact absurd (h.2 _ hm) (by decide)

end Tnt
