import Tnt.Lib.CText
import Tnt.Lib.Calendar
/-!
# Calendar fields as text

`strftime` and `strptime` for formats made of the numeric conversions and of
plain bytes, as POSIX specifies them. `strftime` pads to two digits; `strptime`
takes leading zeros but does not require them, checks each field against its own
range and leaves what is behind the last conversion.
-/

namespace BaseLib

inductive Field
  | year | month | day | hour | minute | second
  deriving DecidableEq

namespace Field

/-- The most digits a conversion reads. -/
def width : Field → Nat
  | year => 4
  | _ => 2

/-- The least and the greatest value a conversion reads. -/
def range : Field → Nat × Nat
  | year => (0, 9999)
  | month => (1, 12)
  | day => (1, 31)
  | hour => (0, 23)
  | minute => (0, 59)
  | second => (0, 60)

def get (tm : Tm) : Field → Int
  | year => tm.year
  | month => tm.month
  | day => tm.day
  | hour => tm.hour
  | minute => tm.minute
  | second => tm.second

def set (tm : Tm) (v : Int) : Field → Tm
  | year => { tm with year := v }
  | month => { tm with month := v }
  | day => { tm with day := v }
  | hour => { tm with hour := v }
  | minute => { tm with minute := v }
  | second => { tm with second := v }

/-- A field as `strftime` writes it. -/
def text (f : Field) (v : Int) : Bytes :=
  match f with
  | year => if v < 0 then 0x2D :: decimal v.natAbs else decimal v.toNat
  | _ => twoDigits v.toNat

end Field

/-- A piece of a format: a conversion or a byte that stands for itself. -/
inductive Item
  | conv (f : Field)
  | lit (b : UInt8)
  deriving DecidableEq

def strftime (fmt : List Item) (tm : Tm) : Bytes :=
  fmt.flatMap fun
    | .conv f => f.text (f.get tm)
    | .lit b => [b]

/-- The value of a string of digits. -/
def digitsVal (ds : Bytes) : Nat := ds.foldl (fun v b => 10 * v + digitVal b) 0

/-- One numeric conversion: up to `width` digits, of a value between `lo` and `hi`. -/
def number (width lo hi : Nat) (s : Bytes) : Option (Nat × Bytes) :=
  let ds := (s.take width).takeWhile isDigit
  if ds = [] then none
  else if lo ≤ digitsVal ds ∧ digitsVal ds ≤ hi then some (digitsVal ds, s.drop ds.length)
  else none

/-- Read `s` into the fields of `tm`; what is left of `s` comes second. -/
def strptime : List Item → Tm → Bytes → Option (Tm × Bytes)
  | [], tm, s => some (tm, s)
  | .lit b :: fmt, tm, s =>
    match s with
    | [] => none
    | c :: s => if c = b then strptime fmt tm s else none
  | .conv f :: fmt, tm, s =>
    match number f.width f.range.1 f.range.2 s with
    | none => none
    | some (v, s) => strptime fmt (f.set tm v) s

theorem strptime_conv {f : Field} {fmt : List Item} {tm : Tm} {s r : Bytes} {v : Nat}
    (h : number f.width f.range.1 f.range.2 s = some (v, r)) :
    strptime (.conv f :: fmt) tm s = strptime fmt (f.set tm v) r := by
  rw [strptime, h]

theorem strptime_conv_none {f : Field} {fmt : List Item} {tm : Tm} {s : Bytes}
    (h : number f.width f.range.1 f.range.2 s = none) : strptime (.conv f :: fmt) tm s = none := by
  rw [strptime, h]

theorem strptime_lit_ne {b c : UInt8} (h : c ≠ b) (fmt : List Item) (tm : Tm) (s : Bytes) :
    strptime (.lit b :: fmt) tm (c :: s) = none := by
  rw [strptime, if_neg h]

/-! ## Numbers -/

/-- Digits that end where the conversion does are read in full. -/
theorem number_append {w : Nat} (lo hi : Nat) {ds : Bytes} (hne : ds ≠ []) (hd : ∀ b ∈ ds, isDigit b = true)
    (hw : ds.length ≤ w) (s : Bytes) (hs : ds.length = w ∨ ∀ b ∈ s.head?, isDigit b = false) :
    number w lo hi (ds ++ s) =
      if lo ≤ digitsVal ds ∧ digitsVal ds ≤ hi then some (digitsVal ds, s) else none := by
  have htake : ((ds ++ s).take w).takeWhile isDigit = ds := by
    rw [List.take_append, List.take_of_length_le hw, List.takeWhile_append_of_pos hd]
    rcases hs with hs | hs
    · simp [hs]
    · cases s with
      | nil => simp
      | cons c s =>
        cases w - ds.length with
        | zero => simp
        | succ n => simp [hs c rfl]
  simp only [number, htake, if_neg hne, List.drop_left]

theorem number_length {w lo hi v : Nat} {s r : Bytes} (h : number w lo hi s = some (v, r)) :
    s.length ≤ r.length + w := by
  simp only [number] at h
  split_ifs at h with h1 h2
  simp only [Option.some.injEq, Prod.mk.injEq] at h
  have := (List.takeWhile_prefix (l := s.take w) isDigit).length_le
  rw [List.length_take] at this
  rw [← h.2, List.length_drop]
  omega

theorem number_suffix {w lo hi v : Nat} {s r : Bytes} (h : number w lo hi s = some (v, r)) : r <:+ s := by
  simp only [number] at h
  split_ifs at h with h1 h2
  simp only [Option.some.injEq, Prod.mk.injEq] at h
  exact h.2 ▸ List.drop_suffix _ _

theorem number_range {w lo hi v : Nat} {s r : Bytes} (h : number w lo hi s = some (v, r)) : lo ≤ v ∧ v ≤ hi := by
  simp only [number] at h
  split_ifs at h with h1 h2
  simp only [Option.some.injEq, Prod.mk.injEq] at h
  exact h.1 ▸ h2

/-- A conversion does not start on another byte. -/
theorem number_cons_of_not_digit {w lo hi : Nat} {b : UInt8} (hb : isDigit b = false) (s : Bytes) :
    number w lo hi (b :: s) = none := by
  cases w <;> simp [number, hb]

theorem digitsVal_append (ds : Bytes) (b : UInt8) : digitsVal (ds ++ [b]) = 10 * digitsVal ds + digitVal b := by
  simp [digitsVal]

@[simp] theorem digitsVal_singleton (b : UInt8) : digitsVal [b] = digitVal b := by
  simp [digitsVal]

theorem isDigit_of_mem_decimal {n : Nat} {b : UInt8} (hb : b ∈ decimal n) : isDigit b = true := by
  induction n using Nat.strong_induction_on with
  | _ n ih =>
    rcases Nat.lt_or_ge n 10 with hn | hn
    · rw [decimal_lt hn, List.mem_singleton] at hb
      exact hb ▸ isDigit_digit n
    · rw [decimal_ge hn, List.mem_append, List.mem_singleton] at hb
      rcases hb with hb | rfl
      · exact ih _ (Nat.div_lt_self (by omega) (by omega)) hb
      · exact isDigit_digit n

@[simp] theorem digitsVal_decimal (n : Nat) : digitsVal (decimal n) = n := by
  induction n using Nat.strong_induction_on with
  | _ n ih =>
    rcases Nat.lt_or_ge n 10 with hn | hn
    · rw [decimal_lt hn, digitsVal_singleton, digitVal_digit, Nat.mod_eq_of_lt hn]
    · rw [decimal_ge hn, digitsVal_append, ih _ (Nat.div_lt_self (by omega) (by omega)), digitVal_digit]
      omega

/-! ## What is written is read back -/

/-- Fields that `strftime` writes in exactly the digits `strptime` reads. -/
structure Tm.FourDigit (tm : Tm) : Prop where
  year : 1000 ≤ tm.year ∧ tm.year ≤ 9999
  month : 1 ≤ tm.month ∧ tm.month ≤ 12
  day : 1 ≤ tm.day ∧ tm.day ≤ 31
  hour : 0 ≤ tm.hour ∧ tm.hour ≤ 23
  minute : 0 ≤ tm.minute ∧ tm.minute ≤ 59
  second : 0 ≤ tm.second ∧ tm.second ≤ 59

theorem gmtime_fourDigit {t : Int} (hy : 1000 ≤ (gmtime t).year ∧ (gmtime t).year ≤ 9999) :
    (gmtime t).FourDigit :=
  have h := gmtime_fields t
  ⟨hy, h.1, h.2.1, h.2.2.1, h.2.2.2.1, h.2.2.2.2⟩

/-- A field is written with `width` digits that name its value. -/
theorem field_text {tm : Tm} (h : tm.FourDigit) (f : Field) :
    (f.text (f.get tm)).length = f.width ∧ (∀ b ∈ f.text (f.get tm), isDigit b = true) ∧
      (digitsVal (f.text (f.get tm)) : Int) = f.get tm := by
  have two {v : Int} (h0 : 0 ≤ v) (h1 : v < 100) : (twoDigits v.toNat).length = 2 ∧
      (∀ b ∈ twoDigits v.toNat, isDigit b = true) ∧ (digitsVal (twoDigits v.toNat) : Int) = v := by
    rw [twoDigits_lt (by omega)]
    refine ⟨rfl, by simp, ?_⟩
    rw [show [digit (v.toNat / 10), digit v.toNat] = [digit (v.toNat / 10)] ++ [digit v.toNat] from rfl,
      digitsVal_append, digitsVal_singleton, digitVal_digit, digitVal_digit]
    omega
  cases f with
  | year =>
    obtain ⟨h0, h1⟩ := h.year
    have ht : Field.year.text (Field.year.get tm) = decimal tm.year.toNat :=
      if_neg (show ¬ tm.year < 0 by omega)
    rw [ht, decimal_four (by omega) (by omega)]
    refine ⟨rfl, by simp, ?_⟩
    simp only [digitsVal, List.foldl_cons, List.foldl_nil, digitVal_digit, Field.get]
    omega
  | month => exact two (v := tm.month) (by have := h.month.1; omega) (by have := h.month.2; omega)
  | day => exact two (v := tm.day) (by have := h.day.1; omega) (by have := h.day.2; omega)
  | hour => exact two (v := tm.hour) h.hour.1 (by have := h.hour.2; omega)
  | minute => exact two (v := tm.minute) h.minute.1 (by have := h.minute.2; omega)
  | second => exact two (v := tm.second) h.second.1 (by have := h.second.2; omega)

theorem field_range {tm : Tm} (h : tm.FourDigit) (f : Field) :
    (f.range.1 : Int) ≤ f.get tm ∧ f.get tm ≤ f.range.2 := by
  obtain ⟨hy, hmo, hd, hh, hmi, hs⟩ := h
  cases f <;> simp only [Field.get, Field.range] <;> omega

/-- The fields of `tm` that a format names, over those of `tm₀`. -/
def assign (tm : Tm) : List Item → Tm → Tm
  | [], tm₀ => tm₀
  | .lit _ :: fmt, tm₀ => assign tm fmt tm₀
  | .conv f :: fmt, tm₀ => assign tm fmt (f.set tm₀ (f.get tm))

theorem strptime_strftime {tm : Tm} (h : tm.FourDigit) (fmt : List Item) (tm₀ : Tm) (s : Bytes) :
    strptime fmt tm₀ (strftime fmt tm ++ s) = some (assign tm fmt tm₀, s) := by
  induction fmt generalizing tm₀ with
  | nil => rfl
  | cons i fmt ih =>
    simp only [strftime, List.flatMap_cons, List.append_assoc] at ih ⊢
    cases i with
    | lit b => simpa [strptime, assign] using ih tm₀
    | conv f =>
      obtain ⟨hlen, hdig, hval⟩ := field_text h f
      have hr := field_range h f
      have hne : f.text (f.get tm) ≠ [] := by
        intro h0
        rw [h0] at hlen
        cases f <;> simp [Field.width] at hlen
      simp only [strptime, assign, number_append f.range.1 f.range.2 hne hdig hlen.le _ (.inl hlen)]
      rw [if_pos (by omega)]
      dsimp only
      rw [hval]
      exact ih _

/-! ## What a format takes in -/

/-- The length of the longest text of a format. -/
def formatWidth : List Item → Nat
  | [] => 0
  | .lit _ :: fmt => 1 + formatWidth fmt
  | .conv f :: fmt => f.width + formatWidth fmt

theorem length_strftime {tm : Tm} (h : tm.FourDigit) (fmt : List Item) :
    (strftime fmt tm).length = formatWidth fmt := by
  induction fmt with
  | nil => rfl
  | cons i fmt ih =>
    simp only [strftime, List.flatMap_cons, List.length_append] at ih ⊢
    cases i with
    | lit b => rw [ih, formatWidth, List.length_singleton]
    | conv f => rw [ih, formatWidth, (field_text h f).1]

/-- Whatever the time is, a text is made of digits, of the sign of a year and of the bytes of the format. -/
theorem mem_strftime {tm : Tm} {fmt : List Item} {b : UInt8} (hb : b ∈ strftime fmt tm) :
    isDigit b = true ∨ b = 0x2D ∨ .lit b ∈ fmt := by
  have htwo {v : Int} (hb : b ∈ twoDigits v.toNat) : isDigit b = true := by
    unfold twoDigits at hb
    split at hb
    · simp only [List.mem_cons, List.not_mem_nil, or_false] at hb
      rcases hb with rfl | rfl
      · rfl
      · exact isDigit_digit _
    · exact isDigit_of_mem_decimal hb
  obtain ⟨i, hi, hb⟩ := List.mem_flatMap.1 hb
  cases i with
  | lit c => exact .inr (.inr (List.mem_singleton.1 hb ▸ hi))
  | conv f =>
    cases f with
    | year =>
      simp only [Field.text] at hb
      split at hb
      · rcases List.mem_cons.1 hb with rfl | hb
        · exact .inr (.inl rfl)
        · exact .inl (isDigit_of_mem_decimal hb)
      · exact .inl (isDigit_of_mem_decimal hb)
    | month => exact .inl (htwo hb)
    | day => exact .inl (htwo hb)
    | hour => exact .inl (htwo hb)
    | minute => exact .inl (htwo hb)
    | second => exact .inl (htwo hb)

theorem count_strftime {tm : Tm} (h : tm.FourDigit) (fmt : List Item) {b : UInt8} (hb : isDigit b = false) :
    (strftime fmt tm).count b = fmt.count (.lit b) := by
  induction fmt with
  | nil => rfl
  | cons i fmt ih =>
    simp only [strftime, List.flatMap_cons, List.count_append, List.count_cons, beq_iff_eq] at ih ⊢
    cases i with
    | lit c =>
      simp only [ih, List.count_cons, List.count_nil, beq_iff_eq, Item.lit.injEq]
      omega
    | conv f =>
      have h0 : (f.text (f.get tm)).count b = 0 := List.count_eq_zero.2 fun hm => by
        simp [(field_text h f).2.1 b hm] at hb
      simp [ih, h0]

/-- What `strptime` has read begins with the bytes of the format, -/
theorem strptime_lit_some {b : UInt8} {fmt : List Item} {tm : Tm} {s : Bytes} {x : Tm × Bytes}
    (h : strptime (.lit b :: fmt) tm s = some x) : ∃ t, s = b :: t ∧ strptime fmt tm t = some x := by
  cases s with
  | nil => cases h
  | cons c s =>
    obtain ⟨rfl, hrest⟩ := Option.ite_none_right_eq_some.1 h
    exact ⟨s, rfl, hrest⟩

/-- and with a number for each conversion. -/
theorem strptime_conv_some {f : Field} {fmt : List Item} {tm : Tm} {s : Bytes} {x : Tm × Bytes}
    (h : strptime (.conv f :: fmt) tm s = some x) :
    ∃ v t, number f.width f.range.1 f.range.2 s = some (v, t) ∧ strptime fmt (f.set tm v) t = some x := by
  rcases hn : number f.width f.range.1 f.range.2 s with _ | ⟨v, t⟩
  · rw [strptime_conv_none hn] at h
    cases h
  · rw [strptime_conv hn] at h
    exact ⟨v, t, rfl, h⟩

/-- `strptime` takes no more than the conversions and bytes of the format can. -/
theorem strptime_length {fmt : List Item} {tm tm' : Tm} {s r : Bytes} (h : strptime fmt tm s = some (tm', r)) :
    s.length ≤ r.length + formatWidth fmt := by
  induction fmt generalizing tm s with
  | nil =>
    simp only [strptime, Option.some.injEq, Prod.mk.injEq] at h
    simp [h.2]
  | cons i fmt ih =>
    cases i with
    | lit b =>
      obtain ⟨t, rfl, hrest⟩ := strptime_lit_some h
      have hlen := ih hrest
      rw [List.length_cons, formatWidth]
      omega
    | conv f =>
      obtain ⟨v, t, hn, hrest⟩ := strptime_conv_some h
      have hfield := number_length hn
      have hlen := ih hrest
      rw [formatWidth]
      omega

/-- A value that the conversion of the field reads. -/
def Tm.InRange (tm : Tm) (f : Field) : Prop := f.range.1 ≤ f.get tm ∧ f.get tm ≤ f.range.2

/-- Every field that the format has a conversion for is left in its range. -/
theorem strptime_range {fmt : List Item} {tm tm' : Tm} {s r : Bytes} (h : strptime fmt tm s = some (tm', r))
    {f : Field} (hf : .conv f ∈ fmt ∨ tm.InRange f) : tm'.InRange f := by
  induction fmt generalizing tm s with
  | nil =>
    simp only [strptime, Option.some.injEq, Prod.mk.injEq] at h
    exact h.1 ▸ hf.resolve_left List.not_mem_nil
  | cons i fmt ih =>
    cases i with
    | lit b =>
      obtain ⟨t, rfl, hrest⟩ := strptime_lit_some h
      exact ih hrest (by simpa using hf)
    | conv g =>
      obtain ⟨v, t, hn, hrest⟩ := strptime_conv_some h
      have hv := number_range hn
      apply ih hrest
      by_cases hfg : f = g
      · subst hfg
        right
        unfold Tm.InRange
        cases f <;> simp only [Field.get, Field.set] <;> omega
      · rcases hf with hf | hf
        · rcases List.mem_cons.1 hf with hf | hf
          · exact absurd (Item.conv.inj hf) hfg
          · exact .inl hf
        · right
          unfold Tm.InRange at hf ⊢
          cases f <;> cases g <;> first | exact absurd rfl hfg | exact hf

/-- Every plain byte of the format stands in what `strptime` takes. -/
theorem strptime_count {fmt : List Item} {tm tm' : Tm} {s r : Bytes} (h : strptime fmt tm s = some (tm', r))
    (b : UInt8) : fmt.count (.lit b) + r.count b ≤ s.count b := by
  induction fmt generalizing tm s with
  | nil =>
    simp only [strptime, Option.some.injEq, Prod.mk.injEq] at h
    simp [h.2]
  | cons i fmt ih =>
    cases i with
    | lit c =>
      obtain ⟨t, rfl, hrest⟩ := strptime_lit_some h
      have hcount := ih hrest
      simp only [List.count_cons, beq_iff_eq, Item.lit.injEq]
      omega
    | conv f =>
      obtain ⟨v, t, hn, hrest⟩ := strptime_conv_some h
      have hfield := (number_suffix hn).sublist.count_le b
      have hcount := ih hrest
      simp only [List.count_cons, beq_iff_eq, reduceCtorEq, if_false]
      omega

/-! ## Fields in full width -/

/-- A field with all the digits that its conversion can read. -/
def Field.padded (f : Field) (v : Int) : Bytes :=
  match f with
  | year => [digit (v.toNat / 1000), digit (v.toNat / 100), digit (v.toNat / 10), digit v.toNat]
  | _ => [digit (v.toNat / 10), digit v.toNat]

/-- The text of a format with every field in full width. -/
def fullTime (fmt : List Item) (tm : Tm) : Bytes :=
  fmt.flatMap fun
    | .conv f => f.padded (f.get tm)
    | .lit b => [b]

theorem fullTime_conv (f : Field) (fmt : List Item) (tm : Tm) :
    fullTime (.conv f :: fmt) tm = f.padded (f.get tm) ++ fullTime fmt tm := rfl

theorem fullTime_lit (b : UInt8) (fmt : List Item) (tm : Tm) : fullTime (.lit b :: fmt) tm = b :: fullTime fmt tm := rfl

theorem mem_fullTime {fmt : List Item} {tm : Tm} {b : UInt8} (h : b ∈ fullTime fmt tm) :
    isDigit b = true ∨ .lit b ∈ fmt := by
  obtain ⟨i, hi, hb⟩ := List.mem_flatMap.1 h
  cases i with
  | lit c => exact .inr (List.mem_singleton.1 hb ▸ hi)
  | conv f =>
    left
    cases f <;> simp only [Field.padded, List.mem_cons, List.not_mem_nil, or_false] at hb <;>
      rcases hb with rfl | rfl | rfl | rfl <;> exact isDigit_digit _

theorem digit_digitVal {b : UInt8} (h : isDigit b = true) : digit (digitVal b) = b := by
  simp only [isDigit, Bool.and_eq_true, decide_eq_true_eq, UInt8.le_iff_toNat_le, UInt8.reduceToNat] at h
  rw [← UInt8.toNat_inj, toNat_digit, digitVal]
  omega

/-- A field in full width is read as its value. -/
theorem padded_spec {tm : Tm} {f : Field} (h : tm.InRange f) :
    (f.padded (f.get tm)).length = f.width ∧ (∀ b ∈ f.padded (f.get tm), isDigit b = true) ∧
      (digitsVal (f.padded (f.get tm)) : Int) = f.get tm := by
  cases f <;> simp only [Tm.InRange, Field.range, Field.get] at h <;>
    refine ⟨rfl, by simp [Field.padded], ?_⟩ <;>
    simp only [Field.padded, Field.get, digitsVal, List.foldl_cons, List.foldl_nil, digitVal_digit] <;> omega

theorem strptime_fullTime {tm : Tm} (h : ∀ f, tm.InRange f) (fmt : List Item) (tm₀ : Tm) (s : Bytes) :
    strptime fmt tm₀ (fullTime fmt tm ++ s) = some (assign tm fmt tm₀, s) := by
  induction fmt generalizing tm₀ with
  | nil => rfl
  | cons i fmt ih =>
    cases i with
    | lit b => simpa [fullTime_lit, strptime, assign] using ih tm₀
    | conv f =>
      obtain ⟨hlen, hdig, hval⟩ := padded_spec (h f)
      have hr := h f
      have hne : f.padded (f.get tm) ≠ [] := by
        intro h0
        rw [h0] at hlen
        cases f <;> simp [Field.width] at hlen
      have hnumber := number_append f.range.1 f.range.2 hne hdig hlen.le (fullTime fmt tm ++ s) (.inl hlen)
      unfold Tm.InRange at hr
      rw [if_pos (by omega)] at hnumber
      rw [fullTime_conv, List.append_assoc, strptime_conv hnumber, assign, hval]
      exact ih _

/-- What a conversion takes are digits of the value. -/
theorem number_some {w lo hi v : Nat} {s r : Bytes} (h : number w lo hi s = some (v, r)) :
    ∃ ds, s = ds ++ r ∧ digitsVal ds = v ∧ ds.length ≤ w ∧ ∀ b ∈ ds, isDigit b = true := by
  simp only [number] at h
  split_ifs at h with h1 h2
  simp only [Option.some.injEq, Prod.mk.injEq] at h
  obtain ⟨rfl, rfl⟩ := h
  have hpre : (s.take w).takeWhile isDigit <+: s := (List.takeWhile_prefix _).trans (List.take_prefix _ _)
  refine ⟨(s.take w).takeWhile isDigit, ?_, rfl, ?_, fun b hb => List.mem_takeWhile_imp hb⟩
  · exact (List.prefix_iff_eq_append.1 hpre).symm
  · have := (List.takeWhile_prefix (l := s.take w) isDigit).length_le
    rw [List.length_take] at this
    omega

theorem digit_eq {n : Nat} {b : UInt8} (hb : isDigit b = true) (h : n % 10 = digitVal b % 10) : digit n = b := by
  rw [← digit_digitVal hb]
  exact congrArg (fun k => UInt8.ofNat (48 + k)) h

theorem padded_digitsVal {f : Field} {ds : Bytes} (hlen : ds.length = f.width) (hd : ∀ b ∈ ds, isDigit b = true) :
    f.padded (digitsVal ds) = ds := by
  have hval {b : UInt8} (hb : isDigit b = true) : digitVal b < 10 := by
    rw [← digit_digitVal hb, digitVal_digit]
    exact Nat.mod_lt _ (by decide)
  have htwo (hlen : ds.length = 2) :
      [digit (((digitsVal ds : Nat) : Int).toNat / 10), digit ((digitsVal ds : Nat) : Int).toNat] = ds := by
    obtain ⟨a, b, rfl⟩ := List.length_eq_two.1 hlen
    have ha := hval (hd a (by simp))
    have hb := hval (hd b (by simp))
    simp only [digitsVal, List.foldl_cons, List.foldl_nil, Int.toNat_natCast]
    rw [digit_eq (hd a (by simp)) (by omega), digit_eq (hd b (by simp)) (by omega)]
  cases f with
  | year =>
    obtain ⟨a, b, c, d, rfl⟩ : ∃ a b c d, ds = [a, b, c, d] := by
      match ds, hlen with
      | [a, b, c, d], _ => exact ⟨a, b, c, d, rfl⟩
    have ha := hval (hd a (by simp))
    have hb := hval (hd b (by simp))
    have hc := hval (hd c (by simp))
    have hd' := hval (hd d (by simp))
    simp only [Field.padded, digitsVal, List.foldl_cons, List.foldl_nil, Int.toNat_natCast]
    rw [digit_eq (hd a (by simp)) (by omega), digit_eq (hd b (by simp)) (by omega),
      digit_eq (hd c (by simp)) (by omega), digit_eq (hd d (by simp)) (by omega)]
  | month => exact htwo hlen
  | day => exact htwo hlen
  | hour => exact htwo hlen
  | minute => exact htwo hlen
  | second => exact htwo hlen

/-- A field that the rest of the format does not name stays. -/
theorem strptime_get {fmt : List Item} {tm tm' : Tm} {s r : Bytes} (h : strptime fmt tm s = some (tm', r))
    {f : Field} (hf : .conv f ∉ fmt) : f.get tm' = f.get tm := by
  induction fmt generalizing tm s with
  | nil =>
    simp only [strptime, Option.some.injEq, Prod.mk.injEq] at h
    rw [h.1]
  | cons i fmt ih =>
    rw [List.mem_cons, not_or] at hf
    cases i with
    | lit b =>
      obtain ⟨t, rfl, hrest⟩ := strptime_lit_some h
      exact ih hrest hf.2
    | conv g =>
      obtain ⟨v, t, -, hrest⟩ := strptime_conv_some h
      have hfg : f ≠ g := fun hfg => hf.1 (congrArg Item.conv hfg)
      rw [ih hrest hf.2]
      cases f <;> cases g <;> first | exact absurd rfl hfg | rfl

/-- What is as long as the format can be is in full width. -/
theorem eq_fullTime {fmt : List Item} {tm tm' : Tm} {s r : Bytes} (h : strptime fmt tm s = some (tm', r))
    (hfmt : fmt.Pairwise fun i j => ∀ f, i = .conv f → j ≠ .conv f) (hlen : s.length = r.length + formatWidth fmt) :
    s = fullTime fmt tm' ++ r := by
  induction fmt generalizing tm s with
  | nil =>
    simp only [strptime, Option.some.injEq, Prod.mk.injEq] at h
    exact h.2
  | cons i fmt ih =>
    obtain ⟨hi, hrest⟩ := List.pairwise_cons.1 hfmt
    cases i with
    | lit b =>
      obtain ⟨t, rfl, ht⟩ := strptime_lit_some h
      rw [List.length_cons, formatWidth] at hlen
      rw [fullTime_lit, List.cons_append, ← ih ht hrest (by omega)]
    | conv f =>
      obtain ⟨v, t, hn, ht⟩ := strptime_conv_some h
      obtain ⟨ds, rfl, rfl, hw, hdigits⟩ := number_some hn
      have hle := strptime_length ht
      rw [List.length_append, formatWidth] at hlen
      have hf : f.get tm' = digitsVal ds := by
        rw [strptime_get ht fun hm => hi _ hm f rfl rfl]
        cases f <;> rfl
      rw [fullTime_conv, hf, padded_digitsVal (by omega) hdigits, List.append_assoc, ← ih ht hrest (by omega)]

/-- From the year 1000 on, `strftime` writes every field in full width. -/
theorem strftime_eq_fullTime {tm : Tm} (h : tm.FourDigit) (fmt : List Item) : strftime fmt tm = fullTime fmt tm := by
  apply List.flatMap_congr
  intro i _
  cases i with
  | lit b => rfl
  | conv f =>
    cases f with
    | year =>
      have hy := h.year
      have ht : Field.year.text (Field.year.get tm) = decimal tm.year.toNat := if_neg (show ¬ tm.year < 0 by omega)
      exact ht.trans (decimal_four (by omega) (by omega))
    | month => exact twoDigits_lt (by have := h.month; simp only [Field.get]; omega)
    | day => exact twoDigits_lt (by have := h.day; simp only [Field.get]; omega)
    | hour => exact twoDigits_lt (by have := h.hour; simp only [Field.get]; omega)
    | minute => exact twoDigits_lt (by have := h.minute; simp only [Field.get]; omega)
    | second => exact twoDigits_lt (by have := h.second; simp only [Field.get]; omega)

end BaseLib
