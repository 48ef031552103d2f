import Mathlib.Algebra.BigOperators.Ring.List
import Mathlib.Algebra.Order.BigOperators.Group.List
import Tnt.Input
import Tnt.Utf8Encoding
/-!
# Cutting a string from its end (`utf8.c`)

A string is cut in front of one of the pieces that a walk with `utf8_decode`
visits, whatever its bytes are; `utf8_truncate` cuts it at the last such place
that leaves no more columns than it is told (`utf8Truncate_longest`).
-/
open BaseLib

namespace Tnt

/-! ## `utf8_truncate` -/

/-- `t` is what a walk with `utf8_decode` over `s` has read at one of its steps. -/
def IsCut (s t : Bytes) : Prop := Front (fun p => (utf8Decode p).2) s t

theorem isCut_iff {s t : Bytes} : IsCut s t ↔ ∃ k, t = ((utf8Chars s).take k).flatten := Iff.rfl

theorem isCut_utf8Truncate (s : Bytes) (maxWidth : Nat) : IsCut s (utf8Truncate s maxWidth) := by
  have hkept := List.prefix_iff_eq_take.1 (isPrefix_utf8TruncateLoop maxWidth 0 (utf8Chars s))
  exact ⟨_, congrArg List.flatten hkept⟩

/-- The columns of some pieces. -/
def columns (cs : List Bytes) : Nat := (cs.map fun c => utf8CharWidth (utf8Decode c).1).sum

theorem columns_cons (c : Bytes) (cs : List Bytes) : columns (c :: cs) = utf8CharWidth (utf8Decode c).1 + columns cs :=
  List.sum_cons

theorem columns_utf8TruncateLoop_le (maxWidth width : Nat) (cs : List Bytes) (h : width ≤ maxWidth) :
    width + columns (utf8TruncateLoop maxWidth width cs) ≤ maxWidth := by
  induction cs generalizing width with
  | nil => exact h
  | cons c cs ih =>
    simp only [utf8TruncateLoop]
    split
    · exact h
    · rw [columns_cons, ← Nat.add_assoc]
      exact ih _ (by omega)

/-- The loop keeps every front of the pieces that fits. -/
theorem take_isPrefix_utf8TruncateLoop (maxWidth width k : Nat) (cs : List Bytes)
    (h : width + columns (cs.take k) ≤ maxWidth) : cs.take k <+: utf8TruncateLoop maxWidth width cs := by
  induction cs generalizing width k with
  | nil => simp [utf8TruncateLoop]
  | cons c cs ih =>
    cases k with
    | zero => exact List.nil_prefix
    | succ k =>
      rw [List.take_succ_cons, columns_cons] at h
      rw [List.take_succ_cons, utf8TruncateLoop]
      rw [if_neg (by omega)]
      exact List.cons_prefix_cons.2 ⟨rfl, ih _ k (by omega)⟩

theorem utf8TruncateLoop_twice (a b width : Nat) (cs : List Bytes) :
    utf8TruncateLoop b width (utf8TruncateLoop a width cs) = utf8TruncateLoop (min a b) width cs := by
  induction cs generalizing width with
  | nil => rfl
  | cons c cs ih =>
    simp only [utf8TruncateLoop]
    by_cases ha : width + utf8CharWidth (utf8Decode c).1 > a
    · rw [if_pos ha, if_pos (by omega), utf8TruncateLoop]
    · rw [if_neg ha, utf8TruncateLoop]
      by_cases hb : width + utf8CharWidth (utf8Decode c).1 > b
      · rw [if_pos hb, if_pos (by omega)]
      · rw [if_neg hb, if_neg (by omega), ih]

theorem utf8StringWidth_utf8Truncate_le (s : Bytes) (maxWidth : Nat) :
    utf8StringWidth (utf8Truncate s maxWidth) ≤ maxWidth := by
  have hle := columns_utf8TruncateLoop_le maxWidth 0 (utf8Chars s) (Nat.zero_le _)
  rw [Nat.zero_add, ← utf8Chars_utf8Truncate] at hle
  exact hle

/-- A column takes four bytes at most. -/
theorem length_le_columns (s : Bytes) : s.length ≤ 4 * utf8StringWidth s := by
  have hread (p : Bytes) : (utf8Decode p).2 ≤ 4 := by
    simp only [utf8Decode]
    split
    · exact Nat.le_of_ble_eq_true rfl
    · exact (utf8ByteLength_pos _).2
  have hpiece : ∀ c ∈ utf8Chars s, c.length ≤ 4 * utf8CharWidth (utf8Decode c).1 := by
    intro c hc
    have hcolumn := utf8CharWidth_pos (utf8Decode c).1
    obtain ⟨p, -, rfl⟩ := mem_cut hc
    have hlen : (p.take (blockLen (fun p => (utf8Decode p).2) p)).length ≤ 4 :=
      (List.length_take_le _ _).trans (Nat.max_le.2 ⟨by decide, hread p⟩)
    omega
  calc s.length = ((utf8Chars s).map List.length).sum := by rw [← List.length_flatten, utf8Chars, cut_flatten]
    _ ≤ ((utf8Chars s).map fun c => 4 * utf8CharWidth (utf8Decode c).1).sum := List.sum_le_sum hpiece
    _ = 4 * utf8StringWidth s := List.sum_map_mul_left ..

/-- Where something is cut off, one column is left at most. -/
theorem le_columns_utf8TruncateLoop (maxWidth width : Nat) (cs : List Bytes) (h : maxWidth < width + columns cs) :
    maxWidth ≤ width + columns (utf8TruncateLoop maxWidth width cs) + 1 := by
  induction cs generalizing width with
  | nil => exact Nat.le_succ_of_le (Nat.le_of_lt h)
  | cons c cs ih =>
    simp only [utf8TruncateLoop]
    split
    · rename_i hfull
      have hle := utf8CharWidth_le (utf8Decode c).1
      rw [show columns [] = 0 from rfl]
      omega
    · rw [columns_cons, ← Nat.add_assoc] at h ⊢
      exact ih _ h

theorem le_utf8StringWidth_utf8Truncate {s : Bytes} {maxWidth : Nat} (h : maxWidth < utf8StringWidth s) :
    maxWidth ≤ utf8StringWidth (utf8Truncate s maxWidth) + 1 := by
  have hle := le_columns_utf8TruncateLoop maxWidth 0 (utf8Chars s) (by rwa [Nat.zero_add])
  rw [Nat.zero_add, ← utf8Chars_utf8Truncate] at hle
  exact hle

theorem isPrefix_utf8Truncate_of_isCut {s t : Bytes} {maxWidth : Nat} (ht : IsCut s t)
    (hw : utf8StringWidth t ≤ maxWidth) : t <+: utf8Truncate s maxWidth := by
  obtain ⟨k, rfl⟩ := isCut_iff.1 ht
  rw [utf8StringWidth, utf8Chars_take] at hw
  obtain ⟨rest, hrest⟩ := take_isPrefix_utf8TruncateLoop maxWidth 0 k (utf8Chars s) (by rwa [Nat.zero_add])
  exact ⟨rest.flatten, by rw [← List.flatten_append, hrest, utf8Truncate]⟩

theorem utf8Truncate_eq_self {s : Bytes} {maxWidth : Nat} :
    utf8Truncate s maxWidth = s ↔ utf8StringWidth s ≤ maxWidth := by
  constructor
  · intro h
    have hle := utf8StringWidth_utf8Truncate_le s maxWidth
    rwa [h] at hle
  · intro h
    have hfront := isPrefix_utf8Truncate s maxWidth
    exact hfront.eq_of_length_le (isPrefix_utf8Truncate_of_isCut (front_self s) h).length_le

/-- The pieces of a valid string are its characters. -/
theorem isChar_of_mem_utf8Chars {s c : Bytes} (h : utf8IsValidString s = true) (hc : c ∈ utf8Chars s) : IsChar c := by
  obtain ⟨cs, rfl, hcs⟩ := (valid_iff s).1 h
  rw [utf8Chars_flatten hcs] at hc
  exact hcs c hc

theorem IsCut.valid {s t : Bytes} (ht : IsCut s t) (h : utf8IsValidString s = true) : utf8IsValidString t = true := by
  obtain ⟨k, rfl⟩ := ht
  exact (valid_iff _).2 ⟨_, rfl, fun c hc => isChar_of_mem_utf8Chars h (List.mem_of_mem_take hc)⟩

/-- What `utf8_truncate` does to any string, valid or not. -/
theorem utf8Truncate_longest (s : Bytes) (maxWidth : Nat) :
    (IsCut s (utf8Truncate s maxWidth) ∧ utf8StringWidth (utf8Truncate s maxWidth) ≤ maxWidth ∧
        ∀ t, IsCut s t → utf8StringWidth t ≤ maxWidth → t <+: utf8Truncate s maxWidth) ∧
      (utf8Truncate s maxWidth = s ↔ utf8StringWidth s ≤ maxWidth) ∧
      (utf8IsValidString s = true → utf8IsValidString (utf8Truncate s maxWidth) = true) ∧
      utf8Truncate (utf8Truncate s maxWidth) maxWidth = utf8Truncate s maxWidth ∧
      ∀ b, utf8Truncate (utf8Truncate s maxWidth) b = utf8Truncate s (min maxWidth b) := by
  have htwice (b : Nat) : utf8Truncate (utf8Truncate s maxWidth) b = utf8Truncate s (min maxWidth b) := by
    have hloop := utf8TruncateLoop_twice maxWidth b 0 (utf8Chars s)
    rw [← utf8Chars_utf8Truncate] at hloop
    exact congrArg List.flatten hloop
  refine ⟨⟨isCut_utf8Truncate s maxWidth, utf8StringWidth_utf8Truncate_le s maxWidth, ?_⟩, utf8Truncate_eq_self, ?_, ?_,
    htwice⟩
  · exact fun t ht hw => isPrefix_utf8Truncate_of_isCut ht hw
  · exact (isCut_utf8Truncate s maxWidth).valid
  · rw [htwice, Nat.min_self]

/-! ## Deleting what was typed -/

/-- `(str[i] & 0xC0) == 0x80`, where a `char` becomes an `int` first. -/
def continuesChar (charSigned : Bool) (b : UInt8) : Bool :=
  BitVec.ofInt 32 (charValue charSigned b) &&& 0xC0#32 == 0x80#32

/-- The sign of `char` does not matter to the scan for the start of a character. -/
theorem continuesChar_eq (charSigned : Bool) (b : UInt8) : continuesChar charSigned b = isContinuation b := by
  revert b
  cases charSigned <;> exact forall_byte (by decide +kernel)

section Typed
variable {cap : Nat} [NeZero cap] {s : CBuf cap}

theorem removeLastChar_inputAppendUtf8Sequence {c : Bytes} (hc : IsChar c) (hfits : s.bytes.length + c.length < cap) :
    utf8RemoveLastChar (inputAppendUtf8Sequence s c).2.bytes = s.bytes := by
  rw [appendUtf8Sequence_isChar hc, appendBytes_bytes hc.zero_notMem, if_pos hfits]
  exact removeLastChar_append hc _

theorem removeLastChar_inputAppendAscii {b : UInt8} (hlow : 32 ≤ b) (hhigh : b < 127)
    (hfits : s.bytes.length + 1 < cap) : utf8RemoveLastChar (inputAppendAscii s b).2.bytes = s.bytes := by
  have hprintable : ¬ (b < 32 ∨ b ≥ 127) := by
    rw [not_or, UInt8.not_lt, UInt8.not_le]
    exact ⟨hlow, hhigh⟩
  have hc : IsChar [b] := by
    rw [UInt8.le_iff_toNat_le] at hlow
    rw [UInt8.lt_iff_toNat_lt] at hhigh
    refine (isChar_single b).2 ⟨?_, Nat.lt_trans hhigh (by decide)⟩
    rintro rfl
    exact absurd hlow (by decide)
  rw [inputAppendAscii, if_neg hprintable, appendBytes_bytes hc.zero_notMem, if_pos (by simpa using hfits)]
  exact removeLastChar_append hc _

end Typed

/-- Deleting takes one character after the other from the end. -/
theorem removeLastChar_iterate {cs : List Bytes} (h : ∀ c ∈ cs, IsChar c) (n : Nat) :
    utf8RemoveLastChar^[n] cs.flatten = (cs.take (cs.length - n)).flatten := by
  induction n with
  | zero => rw [Nat.sub_zero, List.take_length, Function.iterate_zero_apply]
  | succ n ih =>
    rw [Function.iterate_succ_apply', ih]
    rcases Nat.lt_or_ge n cs.length with hn | hn
    · obtain ⟨k, hk⟩ : ∃ k, cs.length - n = k + 1 := ⟨cs.length - n - 1, by omega⟩
      have hlt : k < cs.length := by omega
      rw [hk, show cs.length - (n + 1) = k by omega, List.take_add_one, List.getElem?_eq_getElem hlt,
        Option.toList_some, List.flatten_append, List.flatten_singleton]
      exact removeLastChar_append (h _ (List.getElem_mem hlt)) _
    · rw [Nat.sub_eq_zero_of_le hn, Nat.sub_eq_zero_of_le (by omega)]
      rfl

/-- `s` ends in a word behind a space, and in spaces: `front` is what the space ends. -/
def WordBehind (s front : Bytes) : Prop :=
  ∃ p word spaces, front = p ++ [0x20] ∧ s = front ++ word ++ spaces ∧ word ≠ [] ∧ 0x20 ∉ word ∧ ∀ b ∈ spaces, b = 0x20

theorem removeLastWord_of_wordBehind {s front : Bytes} (h : WordBehind s front) : utf8RemoveLastWord s = front := by
  obtain ⟨p, word, spaces, rfl, rfl, hne, hword, hspaces⟩ := h
  obtain ⟨w, b, rfl⟩ := List.eq_nil_or_concat word |>.resolve_left hne
  have hskip : ∀ x ∈ spaces.reverse, (x == 0x20) = true := fun x hx => beq_iff_eq.2 (hspaces x (List.mem_reverse.1 hx))
  have hwalk : ∀ x ∈ (w.concat b).reverse, (x != 0x20) = true := fun x hx =>
    bne_iff_ne.2 (ne_of_mem_of_not_mem (List.mem_reverse.1 hx) hword)
  have hlast : ¬ (b == 0x20) = true := fun h => hword (by simp [beq_iff_eq.1 h])
  have hstop : ((w.concat b).reverse ++ (p ++ [0x20]).reverse).dropWhile (· == 0x20) =
      (w.concat b).reverse ++ (p ++ [0x20]).reverse := by
    rw [List.concat_eq_append, List.reverse_append]
    exact List.dropWhile_cons_of_neg hlast
  unfold utf8RemoveLastWord
  rw [List.reverse_append, List.reverse_append, List.dropWhile_append_of_pos hskip, hstop,
    List.dropWhile_append_of_pos hwalk, show (p ++ [(0x20 : UInt8)]).reverse = 0x20 :: p.reverse by simp,
    List.dropWhile_cons_of_neg (by decide), List.reverse_cons, List.reverse_reverse]

/-- Where no space stands before a word, deleting the word leaves nothing. -/
theorem wordBehind_removeLastWord {s : Bytes} (h : utf8RemoveLastWord s ≠ []) :
    WordBehind s (utf8RemoveLastWord s) := by
  unfold utf8RemoveLastWord at h ⊢
  have hspaces := List.takeWhile_append_dropWhile (p := (· == 0x20)) (l := s.reverse)
  generalize hback : s.reverse.dropWhile (· == 0x20) = back at h hspaces ⊢
  have hword := List.takeWhile_append_dropWhile (p := (· != 0x20)) (l := back)
  cases hleft : back.dropWhile (· != 0x20) with
  | nil => rw [hleft] at h; exact absurd rfl h
  | cons c left =>
    have hhead := List.head?_dropWhile_not (· != 0x20) back
    rw [hleft] at hhead
    obtain rfl : c = 0x20 := by simpa using hhead
    rw [hleft] at hword
    have hsp : ∀ b ∈ s.reverse.takeWhile (· == 0x20), b = 0x20 := fun b hb => by
      simpa using List.mem_takeWhile_imp hb
    have hnsp : 0x20 ∉ back.takeWhile (· != 0x20) := fun hmem => by
      simpa using List.mem_takeWhile_imp hmem
    generalize s.reverse.takeWhile (· == 0x20) = spaces at hspaces hsp
    generalize back.takeWhile (· != 0x20) = word at hword hnsp
    refine ⟨left.reverse, word.reverse, spaces.reverse, List.reverse_cons, ?_, ?_, ?_, ?_⟩
    · rw [← List.reverse_reverse s, ← hspaces, ← hword]
      simp
    · -- What is left of the spaces does not start with one.
      intro hempty
      rw [List.reverse_eq_nil_iff] at hempty
      rw [hempty, List.nil_append] at hword
      have hfirst := List.head?_dropWhile_not (· == 0x20) s.reverse
      rw [hback, ← hword] at hfirst
      simp at hfirst
    · exact fun hmem => hnsp (List.mem_reverse.1 hmem)
    · exact fun b hb => hsp b (List.mem_reverse.1 hb)

theorem removeLastWord_isPrefix (s : Bytes) : utf8RemoveLastWord s <+: s := by
  have hsuffix : (s.reverse.dropWhile (· == 0x20)).dropWhile (· != 0x20) <:+ s.reverse :=
    (List.dropWhile_suffix _).trans (List.dropWhile_suffix _)
  have hfront := List.reverse_prefix.2 hsuffix
  rwa [List.reverse_reverse] at hfront

/-- Backspace and Ctrl+W on a valid line: the one takes back what was typed, a character at a time, and the
other what stands behind the last space before the last word. -/
theorem deletion_inverts_typing {cap : Nat} [NeZero cap] (s : CBuf cap) (h : utf8IsValidString s.bytes = true) :
    (∀ c, IsChar c → s.bytes.length + c.length < cap →
        utf8RemoveLastChar (inputAppendUtf8Sequence s c).2.bytes = s.bytes) ∧
      (∀ b : UInt8, 32 ≤ b → b < 127 → s.bytes.length + 1 < cap →
        utf8RemoveLastChar (inputAppendAscii s b).2.bytes = s.bytes) ∧
      (∀ n, utf8RemoveLastChar^[n] s.bytes <+: s.bytes ∧ utf8IsValidString (utf8RemoveLastChar^[n] s.bytes) = true ∧
        (utf8RemoveLastChar^[n] s.bytes = [] ↔ utf8Strlen s.bytes ≤ n)) ∧
      (utf8RemoveLastWord s.bytes <+: s.bytes ∧ utf8IsValidString (utf8RemoveLastWord s.bytes) = true ∧
        (∀ front, WordBehind s.bytes front → utf8RemoveLastWord s.bytes = front) ∧
        ((¬ ∃ front, WordBehind s.bytes front) → utf8RemoveLastWord s.bytes = [])) ∧
      ∀ charSigned b, continuesChar charSigned b = isContinuation b := by
  refine ⟨fun c hc hfits => removeLastChar_inputAppendUtf8Sequence hc hfits,
    fun b hlow hhigh hfits => removeLastChar_inputAppendAscii hlow hhigh hfits, fun n => ?_,
    ⟨removeLastWord_isPrefix _, valid_removeLastWord h, fun front => removeLastWord_of_wordBehind, fun hnone => ?_⟩,
    continuesChar_eq⟩
  · obtain ⟨cs, hs, hcs⟩ := (valid_iff s.bytes).1 h
    have hkept := removeLastChar_iterate hcs n
    have hcut : IsCut s.bytes (utf8RemoveLastChar^[n] s.bytes) := by
      refine isCut_iff.2 ⟨cs.length - n, ?_⟩
      rw [← hs, hkept, utf8Chars_flatten hcs]
    refine ⟨Front.isPrefix hcut, hcut.valid h, ?_⟩
    rw [← hs, hkept, utf8Strlen, utf8Chars_flatten hcs]
    constructor
    · intro hempty
      by_contra hlt
      have hpos : 0 < cs.length := by omega
      have hmem : cs[0] ∈ cs.take (cs.length - n) := by
        rw [List.mem_take_iff_getElem]
        exact ⟨0, by omega, rfl⟩
      exact (hcs _ (List.mem_of_mem_take hmem)).ne_nil (List.flatten_eq_nil_iff.1 hempty _ hmem)
    · intro hle
      rw [Nat.sub_eq_zero_of_le hle]
      rfl
  · by_contra hne
    exact hnone ⟨_, wordBehind_removeLastWord hne⟩

theorem deletion_inverts_typing_greeting :
    utf8RemoveLastChar^[5] (CBuf.copy MAX_MESSAGE_LEN (lit "héllo")).bytes = [] :=
  ((deletion_inverts_typing (CBuf.copy MAX_MESSAGE_LEN (lit "héllo")) (by decide)).2.2.1 5).2.2.2 (by decide)

end Tnt
