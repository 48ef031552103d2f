import Mathlib.Data.List.Infix
import Mathlib.Data.List.TakeWhile
import Mathlib.Algebra.Ring.Nat
/-!
# C strings

A C string is the list of its bytes up to the NUL. `CBuf cap` is what a
`char[cap]` array that holds a C string holds: it carries the proof that the
string and its NUL fit.
-/

namespace BaseLib

abbrev Bytes := List UInt8

/-- What is said of the bytes of a string is checked on these, and not on all bytes there are. -/
instance (priority := high) decidableForallMem {p : UInt8 → Prop} [DecidablePred p] (s : Bytes) :
    Decidable (∀ b ∈ s, p b) := List.decidableBAll p s

/-- The bytes of a string literal, in UTF-8. -/
def lit (s : String) : Bytes := s.toList.flatMap String.utf8EncodeChar

theorem toNat_charOfNat {n : Nat} (h : n.isValidChar) : (Char.ofNat n).val.toNat = n := by
  rw [Char.ofNat, dif_pos h]
  rfl

/-- Byte `i` of a string, the NUL behind its end. -/
def byteAt (s : Bytes) (i : Nat) : UInt8 := s.getD i 0

/-- The bytes up to the first NUL. -/
def cstr (s : Bytes) : Bytes := s.takeWhile (· != 0)

/-- A decidable fact about every byte is a finite check. -/
theorem forall_byte {P : UInt8 → Prop} (h : ∀ n : Fin 256, P (UInt8.ofNat n)) (b : UInt8) : P b := by
  have := h ⟨b.toNat, b.toNat_lt⟩
  simpa using this

/-- `strstr(hay, needle) != NULL` -/
def strstr (hay needle : Bytes) : Bool := decide (needle <:+: hay)

/-- `strstr(hay, needle)`: the rest of `hay` from the first `needle` on. -/
def strstrAt (needle : Bytes) : Bytes → Option Bytes
  | [] => if needle = [] then some [] else none
  | c :: hay => if needle <+: c :: hay then some (c :: hay) else strstrAt needle hay

/-- `strchr(s, c)`: what stands in front of the first `c` and behind it. -/
def strchr (s : Bytes) (c : UInt8) : Option (Bytes × Bytes) :=
  if c ∈ s then some (s.takeWhile (· != c), (s.dropWhile (· != c)).tail) else none

@[simp] theorem strstr_iff {hay needle : Bytes} : strstr hay needle = true ↔ needle <:+: hay := by
  simp [strstr]

theorem byteAt_cons (b : UInt8) (s : Bytes) : byteAt (b :: s) 0 = b := rfl

theorem byteAt_append {s : Bytes} {i : Nat} (h : i < s.length) (t : Bytes) : byteAt (s ++ t) i = byteAt s i := by
  simp [byteAt, List.getD_eq_getElem?_getD, List.getElem?_append_left h]

theorem strchr_eq_some {s a b : Bytes} {c : UInt8} : strchr s c = some (a, b) ↔ s = a ++ c :: b ∧ c ∉ a := by
  constructor
  · intro h
    simp only [strchr, Option.ite_none_right_eq_some, Option.some.injEq, Prod.mk.injEq] at h
    obtain ⟨hm, rfl, rfl⟩ := h
    refine ⟨?_, fun h => by simpa using List.mem_takeWhile_imp h⟩
    have hd : s.dropWhile (· != c) ≠ [] := by
      simpa [List.dropWhile_eq_nil_iff] using hm
    have hc : (s.dropWhile (· != c)).head hd = c := by simpa using List.head_dropWhile_not (· != c) hd
    nth_rewrite 1 [← List.takeWhile_append_dropWhile (p := (· != c)) (l := s), ← List.cons_head_tail hd, hc]
    rfl
  · rintro ⟨rfl, ha⟩
    have ha' : ∀ x ∈ a, (x != c) = true := fun x hx => bne_iff_ne.2 (ne_of_mem_of_not_mem hx ha)
    simp [strchr, List.takeWhile_append_of_pos ha', List.dropWhile_append_of_pos ha']

/-- A text is cut at the first `c` in one way only. -/
theorem append_byte_inj {a b r t : Bytes} {c : UInt8} (ha : c ∉ a) (hb : c ∉ b) (h : a ++ c :: r = b ++ c :: t) :
    a = b ∧ r = t := by
  have hcut := strchr_eq_some.2 ⟨h, hb⟩
  rw [strchr_eq_some.2 ⟨rfl, ha⟩, Option.some.injEq, Prod.mk.injEq] at hcut
  exact hcut

theorem zero_notMem_cstr (s : Bytes) : 0 ∉ cstr s := by
  intro h
  simpa using List.mem_takeWhile_imp h

theorem isPrefix_cstr (s : Bytes) : cstr s <+: s := List.takeWhile_prefix _

theorem cstr_of_notMem {s : Bytes} (h : 0 ∉ s) : cstr s = s := by
  rw [cstr, List.takeWhile_eq_self_iff]
  intro b hb
  simp only [bne_iff_ne, ne_eq]
  rintro rfl
  exact h hb

/-- A NUL ends the string, whatever stands behind it. -/
theorem cstr_append_of_mem {s : Bytes} (h : 0 ∈ s) (t : Bytes) : cstr (s ++ t) = cstr s := by
  induction s with
  | nil => simp at h
  | cons b s ih =>
    by_cases hb : b = 0
    · simp [cstr, hb]
    · have hs : 0 ∈ s := by simpa [Ne.symm hb] using h
      simpa [cstr, hb] using ih hs

theorem length_cstr_lt {s : Bytes} (h : 0 ∈ s) : (cstr s).length < s.length := by
  rcases (isPrefix_cstr s).length_le.lt_or_eq with hl | hl
  · exact hl
  · have := (isPrefix_cstr s).eq_of_length hl
    exact absurd h (this ▸ zero_notMem_cstr s)

section Separated
variable {α : Type*}

/-- Wherever `needle` begins in `sep`, or in front of it so that it reaches into it, the two differ. -/
def Clash (needle sep : List α) : Prop :=
  (∀ k < needle.length, ¬ needle.drop k <+: sep ∧ ¬ sep <+: needle.drop k) ∧
    ∀ k < sep.length, ¬ needle <+: sep.drop k ∧ ¬ sep.drop k <+: needle

instance [DecidableEq α] (needle sep : List α) : Decidable (Clash needle sep) := inferInstanceAs (Decidable (_ ∧ _))

/-- A needle that clashes with the separator lies on one of its sides. -/
theorem infix_separated {needle sep a b : List α} (h : Clash needle sep) :
    needle <:+: a ++ sep ++ b ↔ needle <:+: a ∨ needle <:+: b := by
  constructor
  · rintro ⟨s, t, heq⟩
    rw [List.append_assoc, List.append_assoc] at heq
    rcases List.append_eq_append_iff.1 heq with ⟨a', rfl, ha⟩ | ⟨s', rfl, hs⟩
    · rcases List.append_eq_append_iff.1 ha with ⟨a'', rfl, -⟩ | ⟨n', rfl, hn⟩
      · exact .inl ⟨s, a'', by rw [List.append_assoc]⟩
      · -- It begins in front of the separator and reaches into it.
        cases n' with
        | nil => exact .inl ⟨s, [], by simp⟩
        | cons x n' =>
          have hclash := h.1 a'.length (by simp)
          rw [List.drop_left] at hclash
          rcases List.prefix_or_prefix_of_prefix ⟨b, hn⟩ ⟨t, rfl⟩ with hp | hp
          · exact absurd hp hclash.2
          · exact absurd hp hclash.1
    · rcases List.append_eq_append_iff.1 hs with ⟨w', rfl, hb⟩ | ⟨w', rfl, hw⟩
      · exact .inr ⟨w', t, by rw [hb, List.append_assoc]⟩
      · cases w' with
        | nil => exact .inr ⟨[], t, hw⟩
        | cons x w' =>
          have hclash := h.2 s'.length (by simp)
          rw [List.drop_left] at hclash
          rcases List.prefix_or_prefix_of_prefix ⟨t, hw⟩ ⟨b, rfl⟩ with hp | hp
          · exact absurd hp hclash.1
          · exact absurd hp hclash.2
  · rintro (h | h)
    · exact h.trans (List.append_assoc a sep b ▸ (List.prefix_append _ _).isInfix)
    · exact h.trans (List.suffix_append _ _).isInfix

end Separated

/-! ## Buffers -/

/-- The string in a `char[cap]` array. -/
@[ext] structure CBuf (cap : Nat) where
  bytes : Bytes
  nul_free : 0 ∉ bytes
  fits : bytes.length < cap
  deriving DecidableEq

namespace CBuf
variable {cap : Nat}

/-- `snprintf(buf, cap, "%s", s)`, or `strncpy` and a NUL: as much of `s` as fits. -/
def copy (cap : Nat) [h : NeZero cap] (s : Bytes) : CBuf cap where
  bytes := (cstr s).take (cap - 1)
  nul_free hm := zero_notMem_cstr s (List.mem_of_mem_take hm)
  fits := by
    have := Nat.pos_of_ne_zero h.out
    rw [List.length_take]
    omega

theorem copy_bytes_take [NeZero cap] {s : Bytes} (h0 : 0 ∉ s) : (copy cap s).bytes = s.take (cap - 1) :=
  congrArg (List.take (cap - 1)) (cstr_of_notMem h0)

/-- What fits is copied in full. -/
theorem copy_bytes [NeZero cap] {s : Bytes} (h0 : 0 ∉ s) (hs : s.length < cap) : (copy cap s).bytes = s := by
  rw [copy_bytes_take h0]
  exact List.take_of_length_le (by omega)

@[simp] theorem copy_self [NeZero cap] (b : CBuf cap) : copy cap b.bytes = b :=
  CBuf.ext (copy_bytes b.nul_free b.fits)

theorem mem_of_mem_copy [NeZero cap] {s : Bytes} {b : UInt8} (h : b ∈ (copy cap s).bytes) : b ∈ s :=
  (isPrefix_cstr s).subset (List.mem_of_mem_take h)

/-- Replace bytes in place; NUL is never written. -/
def map (f : UInt8 → UInt8) (hf : ∀ b, f b = 0 → b = 0) (b : CBuf cap) : CBuf cap where
  bytes := b.bytes.map f
  nul_free h := by
    obtain ⟨c, hc, h0⟩ := List.mem_map.1 h
    exact b.nul_free (hf c h0 ▸ hc)
  fits := by simpa using b.fits

end CBuf

/-! ## Decimal numbers -/

/-- The last decimal digit of `n`. -/
def digit (n : Nat) : UInt8 := UInt8.ofNat (48 + n % 10)

def decimalAux : Nat → Nat → Bytes
  | 0, _ => []
  | k + 1, n => if n < 10 then [digit n] else decimalAux k (n / 10) ++ [digit n]

/-- `%d`, of a number that is not negative. -/
def decimal (n : Nat) : Bytes := decimalAux (n + 1) n

/-- `%02d` -/
def twoDigits (n : Nat) : Bytes := if n < 10 then [48, digit n] else decimal n

theorem decimalAux_eq {k m n : Nat} (hk : n < k) (hm : n < m) : decimalAux k n = decimalAux m n := by
  induction k generalizing m n with
  | zero => omega
  | succ k ih =>
    obtain ⟨m, rfl⟩ := Nat.exists_eq_succ_of_ne_zero (Nat.ne_of_gt (Nat.zero_lt_of_lt hm))
    simp only [decimalAux]
    split
    · rfl
    · rw [ih (m := m) (by omega) (by omega)]

theorem decimal_lt {n : Nat} (h : n < 10) : decimal n = [digit n] := by
  simp [decimal, decimalAux, h]

theorem decimal_ge {n : Nat} (h : 10 ≤ n) : decimal n = decimal (n / 10) ++ [digit n] := by
  have h' : ¬ n < 10 := by omega
  simp only [decimal, decimalAux, if_neg h']
  rw [decimalAux_eq (m := n / 10 + 1) (by omega) (by omega)]
  rfl

theorem decimal_four {n : Nat} (h : 1000 ≤ n) (h' : n ≤ 9999) :
    decimal n = [digit (n / 1000), digit (n / 100), digit (n / 10), digit n] := by
  rw [decimal_ge (by omega), decimal_ge (by omega), decimal_ge (by omega), decimal_lt (by omega)]
  simp [Nat.div_div_eq_div_mul]

theorem length_decimal_le {n k : Nat} (h : n < 10 ^ (k + 1)) : (decimal n).length ≤ k + 1 := by
  induction k generalizing n with
  | zero => rw [decimal_lt (by simpa using h), List.length_singleton]
  | succ k ih =>
    rcases Nat.lt_or_ge n 10 with hn | hn
    · rw [decimal_lt hn, List.length_singleton]
      omega
    · rw [decimal_ge hn, List.length_append, List.length_singleton]
      have := ih (Nat.div_lt_of_lt_mul (by rwa [pow_succ, Nat.mul_comm] at h))
      omega

theorem decimal_ne_nil (n : Nat) : decimal n ≠ [] := by
  rcases Nat.lt_or_ge n 10 with hn | hn
  · rw [decimal_lt hn]
    exact List.cons_ne_nil _ _
  · rw [decimal_ge hn]
    exact List.concat_ne_nil _ _

theorem lt_length_decimal {n k : Nat} (h : 10 ^ k ≤ n) : k < (decimal n).length := by
  induction k generalizing n with
  | zero => exact List.length_pos_of_ne_nil (decimal_ne_nil n)
  | succ k ih =>
    have hn : 10 ≤ n := le_trans (Nat.le_self_pow (Nat.succ_ne_zero k) 10) h
    rw [decimal_ge hn, List.length_append, List.length_singleton]
    exact Nat.succ_lt_succ (ih ((Nat.le_div_iff_mul_le (by decide)).2 h))

theorem twoDigits_lt {n : Nat} (h : n < 100) : twoDigits n = [digit (n / 10), digit n] := by
  unfold twoDigits
  split
  · rw [Nat.div_eq_of_lt (by omega)]
    rfl
  · rw [decimal_ge (by omega), decimal_lt (by omega)]
    rfl

/-- `isspace` in the C locale. -/
def isSpace (b : UInt8) : Bool := b == 0x20 || (0x09 ≤ b && b ≤ 0x0D)

/-- `tolower` in the C locale. -/
def toLower (b : UInt8) : UInt8 := if 0x41 ≤ b && b ≤ 0x5A then b + 0x20 else b

/-- `strncasecmp(a, b, n) == 0` -/
def strncasecmpEq (a b : Bytes) (n : Nat) : Bool := (a.take n).map toLower == (b.take n).map toLower

/-- `isdigit` in the C locale. -/
def isDigit (b : UInt8) : Bool := 48 ≤ b && b ≤ 57

/-- The value of a digit. -/
def digitVal (b : UInt8) : Nat := b.toNat - 48

theorem toNat_digit (n : Nat) : (digit n).toNat = 48 + n % 10 := by
  have := Nat.mod_lt n (show 0 < 10 by omega)
  simp only [digit, UInt8.toNat_ofNat']
  omega

@[simp] theorem isDigit_digit (n : Nat) : isDigit (digit n) = true := by
  simp only [isDigit, Bool.and_eq_true, decide_eq_true_eq, UInt8.le_iff_toNat_le, toNat_digit]
  simp only [UInt8.reduceToNat]
  omega

@[simp] theorem digitVal_digit (n : Nat) : digitVal (digit n) = n % 10 := by
  simp [digitVal, toNat_digit]

end BaseLib
