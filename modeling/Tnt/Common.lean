import Tnt.Lib.CText
/-!
# What every part of the server shares (`common.h`, `common.c`, `message.h`)
-/
open BaseLib

namespace Tnt

def MAX_MESSAGES : Nat := 100
def MAX_USERNAME_LEN : Nat := 64
def MAX_MESSAGE_LEN : Nat := 1024
def MAX_LOG_SIZE : Nat := 10 * 1024 * 1024

instance : NeZero MAX_USERNAME_LEN := ⟨by decide⟩
instance : NeZero MAX_MESSAGE_LEN := ⟨by decide⟩

/-- `'|'` -/
abbrev bar : UInt8 := 0x7C

/-- `'\n'` -/
abbrev newline : UInt8 := 0x0A

/-- `message_t` -/
@[ext] structure Message where
  timestamp : Int
  username : CBuf MAX_USERNAME_LEN
  content : CBuf MAX_MESSAGE_LEN
  deriving DecidableEq

/-- A message as `calloc` leaves it. -/
def zeroMessage : Message := ⟨0, CBuf.copy _ [], CBuf.copy _ []⟩

/-- The value of a `char`, which the ABI makes signed or unsigned. -/
def charValue (charSigned : Bool) (b : UInt8) : Int :=
  if charSigned && 0x80 ≤ b then (b.toNat : Int) - 256 else b.toNat

/-- `(int)total` -/
def intOf (total : Nat) : Int := (BitVec.ofNat 32 total).toInt

theorem intOf_of_lt {n : Nat} (h : n < 2 ^ 31) : intOf n = n := by
  unfold intOf
  rw [BitVec.toInt_eq_toNat_of_lt (by rw [BitVec.toNat_ofNat]; omega), BitVec.toNat_ofNat]
  omega

/-- The cast to `int` never makes a count larger. -/
theorem intOf_le (n : Nat) : intOf n ≤ n := by
  unfold intOf
  rw [BitVec.toInt_eq_toNat_cond, BitVec.toNat_ofNat]
  split <;> omega

theorem intOf_lt (n : Nat) : intOf n < 2147483648 := by
  have := @BitVec.two_mul_toInt_lt 32 (BitVec.ofNat 32 n)
  unfold intOf
  omega

def illegalChars : Bytes := lit "|;&$`\n\r<>()\x7b\x7d[]'\"\\"

/-- `is_valid_username` -/
def isValidUsername (charSigned : Bool) (username : Bytes) : Bool :=
  if username = [] then false
  else if byteAt username 0 = 0x20 || byteAt username 0 = 0x2E || byteAt username 0 = 0x2D then false
  else username.all fun b =>
    !(charValue charSigned b < 32 && charValue charSigned b != 9) && !illegalChars.contains b

theorem validChar_ge (charSigned : Bool) (b : UInt8) :
    (!(charValue charSigned b < 32 && charValue charSigned b != 9)) = true → 0x20 ≤ b ∨ b = 0x09 := by
  revert b
  cases charSigned <;> exact forall_byte (by decide +kernel)

/-- A valid name has a tab in it at worst. -/
theorem validUsername_ge {charSigned : Bool} {username : Bytes} (h : isValidUsername charSigned username = true) :
    ∀ b ∈ username, 0x20 ≤ b ∨ b = 0x09 := by
  intro b hb
  unfold isValidUsername at h
  split_ifs at h with h1 h2
  exact validChar_ge charSigned b (Bool.and_eq_true_iff.1 (List.all_eq_true.1 h b hb)).1

/-! ## Buffers that are filled piece by piece -/

/-- `buffer_append_bytes`, or `buffer_appendf` of a formatted string, for what a buffer of `bufSize`
bytes holds. -/
def bufferAppend (bufSize : Nat) (buffer s : Bytes) : Bytes := (buffer ++ s).take (bufSize - 1)

theorem bufferAppend_take (bufSize : Nat) (buffer s : Bytes) :
    bufferAppend bufSize (buffer.take (bufSize - 1)) s = (buffer ++ s).take (bufSize - 1) := by
  unfold bufferAppend
  rw [List.take_append, List.take_append, List.take_take, Nat.min_self, List.length_take]
  rcases Nat.le_total buffer.length (bufSize - 1) with h | h
  · rw [Nat.min_eq_right h]
  · rw [Nat.min_eq_left h, Nat.sub_self, Nat.sub_eq_zero_of_le h]

/-- A buffer holds as much as fits of what was appended. -/
theorem foldl_bufferAppend_take (bufSize : Nat) (buffer : Bytes) (parts : List Bytes) :
    parts.foldl (bufferAppend bufSize) (buffer.take (bufSize - 1)) = (buffer ++ parts.flatten).take (bufSize - 1) := by
  induction parts generalizing buffer with
  | nil => rw [List.foldl_nil, List.flatten_nil, List.append_nil]
  | cons s parts ih =>
    rw [List.foldl_cons, bufferAppend_take, ih, List.flatten_cons, List.append_assoc]

/-! ## Text without controls -/

/-- No byte below the space, and no DEL. -/
def Plain (s : Bytes) : Prop := ∀ b ∈ s, 0x20 ≤ b ∧ b ≠ 0x7F

instance (s : Bytes) : Decidable (Plain s) := List.decidableBAll _ s

@[simp] theorem plain_nil : Plain [] := by simp [Plain]

@[simp] theorem plain_append {s t : Bytes} : Plain (s ++ t) ↔ Plain s ∧ Plain t := List.forall_mem_append

@[simp] theorem plain_cons {b : UInt8} {s : Bytes} : Plain (b :: s) ↔ (0x20 ≤ b ∧ b ≠ 0x7F) ∧ Plain s :=
  List.forall_mem_cons

theorem Plain.subset {s t : Bytes} (h : Plain t) (hst : s ⊆ t) : Plain s := fun b hb => h b (hst hb)

theorem Plain.copy {s : Bytes} (h : Plain s) (cap : Nat) [NeZero cap] : Plain (CBuf.copy cap s).bytes :=
  fun b hb => h b (CBuf.mem_of_mem_copy hb)

end Tnt
