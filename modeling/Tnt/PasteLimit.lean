import Tnt.Input
import Tnt.Utf8Encoding
/-!
# Pasting up to the limit (`input_buffer.c`)

A paste goes into the input character by character, and one that does not fit is left out. A shorter one behind it is
still put in where that fits, so that the input is a front of the whole exactly where there is none
(`paste_keeps_front_iff`).
-/
open BaseLib

namespace Tnt

section Stream
variable {cap : Nat} [NeZero cap]

/-- Stream a paste into a buffer; the flags are those of any of the statuses. -/
def pasteStream (input : CBuf cap) (state : Utf8State) : Bytes → AppendStatus × CBuf cap × Utf8State
  | [] => (.ok, input, state)
  | b :: bs =>
    let (status, input, state) := inputAppendStreamByte input state b true
    let (others, input, state) := pasteStream input state bs
    (status.or others, input, state)

end Stream

/-- A paste as one line: line breaks and tabs are spaces, and there is no other control. -/
def normalisePasted (text : Bytes) : Bytes :=
  (text.map fun b => if b = 0x0D ∨ b = newline ∨ b = 0x09 then 0x20 else b).filter fun b => 0x20 ≤ b ∧ b ≠ 0x7F

/-- What is asked of a paste: it leaves the longest front that fits, and the flags say whether that is all. -/
structure PasteKeepsFront {cap : Nat} [NeZero cap] (input : CBuf cap) (text : Bytes) : Prop where
  kept : LongestFront (fun p => (utf8Decode p).2) (fun t => t.length < cap) (input.bytes ++ normalisePasted text)
    (pasteStream input .reset text).2.1.bytes
  overflow : (pasteStream input .reset text).1.overflow = true ↔
    (pasteStream input .reset text).2.1.bytes ≠ input.bytes ++ normalisePasted text
  valid : (pasteStream input .reset text).1.invalidUtf8 = false

/-! ## One character -/

namespace AppendStatus

@[simp] theorem ok_or (s : AppendStatus) : ok.or s = s := by simp [AppendStatus.or, ok]

@[simp] theorem or_ok (s : AppendStatus) : s.or ok = s := by simp [AppendStatus.or, ok]

theorem or_assoc (s t u : AppendStatus) : (s.or t).or u = s.or (t.or u) := by simp [AppendStatus.or, Bool.or_assoc]

end AppendStatus

section Stream
variable {cap : Nat} [NeZero cap] {input : CBuf cap}

theorem pasteStream_append (input : CBuf cap) (state : Utf8State) (s t : Bytes) :
    pasteStream input state (s ++ t) =
      ((pasteStream input state s).1.or
          (pasteStream (pasteStream input state s).2.1 (pasteStream input state s).2.2 t).1,
        (pasteStream (pasteStream input state s).2.1 (pasteStream input state s).2.2 t).2) := by
  induction s generalizing input state with
  | nil => simp [pasteStream]
  | cons b s ih =>
    simp only [List.cons_append, pasteStream]
    rw [ih, AppendStatus.or_assoc]

theorem normalisePasted_append (s t : Bytes) : normalisePasted (s ++ t) = normalisePasted s ++ normalisePasted t := by
  unfold normalisePasted
  rw [List.map_append, List.filter_append]

/-- Bytes above the controls and DEL stay. -/
theorem normalisePasted_of_plain {s : Bytes} (h : Plain s) : normalisePasted s = s := by
  have hmap : (s.map fun b => if b = 0x0D ∨ b = newline ∨ b = 0x09 then 0x20 else b) = s := by
    refine (List.map_congr_left fun b hb => ?_).trans (List.map_id s)
    refine if_neg ?_
    rintro (rfl | rfl | rfl) <;> exact absurd (h _ hb).1 (by decide)
  rw [normalisePasted, hmap, List.filter_eq_self]
  exact fun b hb => decide_eq_true (h b hb)

/-- A byte that is no control is streamed as it is. -/
theorem stream_printable {state : Utf8State} {b : UInt8} (hb : 0x20 ≤ b) :
    inputAppendStreamByte input state b true = appendPrintableByte input state b := by
  have hspace : (b == 0x0D || b == newline || b == 0x09) = false := by
    simp only [Bool.or_eq_false_iff, beq_eq_false_iff_ne]
    refine ⟨⟨?_, ?_⟩, ?_⟩ <;> rintro rfl <;> exact absurd hb (by decide)
  unfold inputAppendStreamByte
  simp only [Bool.true_and, hspace, Bool.false_eq_true, if_false]
  exact if_neg (UInt8.not_lt.2 hb)

/-- An ASCII byte is put in, as a space, or it is dropped. -/
theorem stream_ascii {b : UInt8} (hb : b < 128) : inputAppendStreamByte input .reset b true =
    ((appendBytes input (normalisePasted [b])).1, (appendBytes input (normalisePasted [b])).2, .reset) := by
  have hprint (c : UInt8) (hc : c < 128) : appendPrintableByte input .reset c =
      ((inputAppendAscii input c).1, (inputAppendAscii input c).2, .reset) := by
    unfold appendPrintableByte
    rw [if_pos hc]
    rfl
  unfold inputAppendStreamByte
  by_cases hspace : b = 0x0D ∨ b = newline ∨ b = 0x09
  · have hb' : (true && (b == 0x0D || b == newline || b == 0x09)) = true := by
      simpa [or_assoc] using hspace
    have hnorm : normalisePasted [b] = [0x20] := by
      rcases hspace with rfl | rfl | rfl <;> decide
    rw [if_pos hb', hnorm]
    exact hprint 0x20 (by decide)
  · have hb' : ¬ (true && (b == 0x0D || b == newline || b == 0x09)) = true := by
      simpa [or_assoc] using hspace
    rw [if_neg hb']
    by_cases hplain : 0x20 ≤ b ∧ b ≠ 0x7F
    · have hnorm := normalisePasted_of_plain (plain_cons.2 ⟨hplain, plain_nil⟩)
      have hlt : ¬ (b < 32 ∨ b ≥ 127) := by
        simp only [UInt8.le_iff_toNat_le, UInt8.lt_iff_toNat_lt, ge_iff_le, ne_eq, ← UInt8.toNat_inj,
          UInt8.reduceToNat] at hplain hb ⊢
        omega
      rw [hnorm, if_neg (UInt8.not_lt.2 hplain.1), hprint b hb, inputAppendAscii, if_neg hlt]
    · have hnorm : normalisePasted [b] = [] := by
        unfold normalisePasted
        rw [List.map_singleton, if_neg hspace, List.filter_cons, if_neg (by simpa using hplain), List.filter_nil]
      rw [hnorm]
      by_cases hctl : b < 32
      · dsimp only
        rw [if_pos hctl]
        rfl
      · have hdel : b = 0x7F := by
          by_contra hne
          exact hplain ⟨UInt8.not_lt.1 hctl, hne⟩
        dsimp only
        rw [if_neg hctl, hprint b hb, inputAppendAscii, if_pos (.inr (by rw [hdel]; decide))]
        rfl

/-- A byte of a longer character is no control. -/
theorem high_byte {b : UInt8} (hb : 0x80 ≤ b.toNat) : ¬ b < 128 ∧ 0x20 ≤ b := by
  have hascii : ¬ b < 128 := by
    rw [UInt8.lt_iff_toNat_lt]
    exact Nat.not_lt.2 hb
  exact ⟨hascii, UInt8.le_trans (by decide) (UInt8.not_lt.1 hascii)⟩

/-- The rest of a character completes it. -/
theorem pasteStream_rest {front t : Bytes} {len : Nat} (ht : ∀ x ∈ t, isContinuation x = true) (hfront : front ≠ [])
    (hne : t ≠ []) (hlen : front.length + t.length = len) : pasteStream input ⟨front, len⟩ t =
      ((inputAppendUtf8Sequence input (front ++ t)).1, (inputAppendUtf8Sequence input (front ++ t)).2, .reset) := by
  induction t generalizing front with
  | nil => exact absurd rfl hne
  | cons b t ih =>
    have hcont := ht b List.mem_cons_self
    obtain ⟨hascii, hge⟩ := high_byte ((isContinuation_iff b).1 hcont).1
    have hstep : inputAppendStreamByte input ⟨front, len⟩ b true =
        if front.length + 1 = len then
          ((inputAppendUtf8Sequence input (front ++ [b])).1, (inputAppendUtf8Sequence input (front ++ [b])).2, .reset)
        else (.ok, input, ⟨front ++ [b], len⟩) := by
      rw [stream_printable hge]
      unfold appendPrintableByte
      rw [if_neg hascii, if_neg (fun h => hfront (List.length_eq_zero_iff.1 h)), if_neg (by rw [hcont]; decide)]
      dsimp only
      rw [List.length_append, List.length_singleton]
    rw [List.length_cons] at hlen
    simp only [pasteStream, hstep]
    rcases eq_or_ne t [] with rfl | hmore
    · rw [if_pos (by simpa using hlen)]
      simp [pasteStream]
    · have hpos := List.length_pos_iff.2 hmore
      rw [if_neg (by omega)]
      dsimp only
      rw [ih (fun x hx => ht x (List.mem_cons_of_mem _ hx)) (by simp) hmore (by simp; omega)]
      simp

/-- A character is put in as one. -/
theorem pasteStream_isChar {c : Bytes} (hc : IsChar c) : pasteStream input .reset c =
    ((appendBytes input (normalisePasted c)).1, (appendBytes input (normalisePasted c)).2, .reset) := by
  rcases hc.cases with ⟨b, rfl, -, hlt⟩ | ⟨hlen, hhigh⟩
  · simp only [pasteStream, stream_ascii (UInt8.lt_iff_toNat_lt.2 hlt), AppendStatus.or_ok]
  · rw [normalisePasted_of_plain (plain_of_high hhigh), ← appendUtf8Sequence_isChar hc]
    obtain ⟨b, t, rfl⟩ := List.exists_cons_of_ne_nil hc.ne_nil
    have hbytes : utf8ByteLength b = (b :: t).length := hc.byteLength
    obtain ⟨hascii, hge⟩ := high_byte (hhigh b List.mem_cons_self)
    have hstart : inputAppendStreamByte input .reset b true = (.ok, input, ⟨[b], utf8ByteLength b⟩) := by
      have hmax := hc.length.2
      have hempty : Utf8State.reset.bytes.length = 0 := rfl
      rw [stream_printable hge]
      unfold appendPrintableByte
      rw [if_neg hascii, if_pos hempty, startUtf8Sequence]
      exact if_neg (by omega)
    rw [List.length_cons] at hlen hbytes
    have hrest := @pasteStream_rest cap _ input [b] t (utf8ByteLength b) hc.tail (List.cons_ne_nil _ _)
      (List.ne_nil_of_length_pos (by omega)) (by rw [hbytes, List.length_singleton, Nat.add_comm])
    simp only [pasteStream, hstart]
    rw [hrest]
    simp

/-! ## A whole paste -/

theorem appendBytes_fits {n : Bytes} (hn : n ≠ []) (h : input.bytes.length + n.length < cap) :
    appendBytes input n = (.ok, CBuf.copy cap (input.bytes ++ n)) := by
  rw [appendBytes, if_neg hn, if_neg (Nat.not_le.2 h)]

theorem appendBytes_full {n : Bytes} (hn : n ≠ []) (h : ¬ input.bytes.length + n.length < cap) :
    appendBytes input n = (⟨false, true, false⟩, input) := by
  rw [appendBytes, if_neg hn, if_pos (Nat.not_lt.1 h)]

end Stream

/-- The characters that are put in behind `len` bytes. -/
def fitting (cap : Nat) : Nat → List Bytes → List Bytes
  | _, [] => []
  | len, c :: cs => if len + c.length < cap then c :: fitting cap (len + c.length) cs else fitting cap len cs

section Fitting
variable {cap len : Nat}

theorem length_fitting_le (cap len : Nat) (cs : List Bytes) : (fitting cap len cs).length ≤ cs.length := by
  induction cs generalizing len with
  | nil => exact Nat.le_refl _
  | cons c cs ih =>
    rw [fitting]
    split
    · exact Nat.succ_le_succ (ih _)
    · exact Nat.le_succ_of_le (ih _)

theorem fitting_subset (cap len : Nat) (cs : List Bytes) : fitting cap len cs ⊆ cs := by
  induction cs generalizing len with
  | nil => exact List.Subset.refl _
  | cons c cs ih =>
    rw [fitting]
    split
    · exact List.cons_subset_cons c (ih _)
    · exact List.subset_cons_of_subset c (ih _)

/-- What fits in full is put in, and then what fits behind it. -/
theorem fitting_append {u v : List Bytes} (h : len + u.flatten.length < cap) :
    fitting cap len (u ++ v) = u ++ fitting cap (len + u.flatten.length) v := by
  induction u generalizing len with
  | nil => rfl
  | cons c u ih =>
    rw [List.flatten_cons, List.length_append, ← Nat.add_assoc] at h ⊢
    rw [List.cons_append, fitting, if_pos (by omega), ih h]
    rfl

theorem fitting_eq_nil {v : List Bytes} : fitting cap len v = [] ↔ ∀ d ∈ v, cap ≤ len + d.length := by
  induction v with
  | nil => simp [fitting]
  | cons d v ih =>
    rw [fitting]
    split
    · rename_i hfits
      simp only [List.cons_ne_nil, false_iff]
      exact fun h => absurd (h d List.mem_cons_self) (Nat.not_le.2 hfits)
    · rename_i hfull
      rw [ih, List.forall_mem_cons]
      exact ⟨fun h => ⟨Nat.not_lt.1 hfull, h⟩, fun h => h.2⟩

/-- All of it fits, or there is a first character that does not. -/
theorem fits_or_stops (h : len < cap) (ns : List Bytes) : len + ns.flatten.length < cap ∨
    ∃ u c v, ns = u ++ c :: v ∧ len + u.flatten.length < cap ∧ cap ≤ len + u.flatten.length + c.length := by
  induction ns generalizing len with
  | nil => exact .inl h
  | cons n ns ih =>
    rcases Nat.lt_or_ge (len + n.length) cap with hn | hn
    · rcases ih hn with hall | ⟨u, c, v, rfl, hu, hc⟩
      · left
        rw [List.flatten_cons, List.length_append]
        omega
      · refine .inr ⟨n :: u, c, v, rfl, ?_, ?_⟩ <;> rw [List.flatten_cons, List.length_append] <;> omega
    · exact .inr ⟨[], n, ns, rfl, h, hn⟩

end Fitting

/-- A character stays, becomes a space, or is dropped. -/
theorem normalisePasted_isChar {c : Bytes} (hc : IsChar c) : normalisePasted c = [] ∨ IsChar (normalisePasted c) := by
  rcases hc.cases with ⟨b, rfl, -, hlt⟩ | ⟨-, hhigh⟩
  · by_cases hspace : b = 0x0D ∨ b = newline ∨ b = 0x09
    · have hnorm : normalisePasted [b] = [0x20] := by
        rcases hspace with rfl | rfl | rfl <;> decide
      rw [hnorm]
      exact .inr ((isChar_single _).2 (by decide))
    · unfold normalisePasted
      rw [List.map_singleton, if_neg hspace, List.filter_cons, List.filter_nil]
      split
      · exact .inr hc
      · exact .inl rfl
  · rw [normalisePasted_of_plain (plain_of_high hhigh)]
    exact .inr hc

/-- The characters of a paste as one line. -/
def pastedChars (cs : List Bytes) : List Bytes := (cs.map normalisePasted).filter (· ≠ [])

theorem flatten_pastedChars (cs : List Bytes) : (pastedChars cs).flatten = normalisePasted cs.flatten := by
  induction cs with
  | nil => rfl
  | cons c cs ih =>
    rw [List.flatten_cons, normalisePasted_append, ← ih]
    unfold pastedChars
    rw [List.map_cons, List.filter_cons]
    split
    · rw [List.flatten_cons]
    · rename_i hnone
      have hnil : normalisePasted c = [] := by simpa using hnone
      rw [hnil, List.nil_append]

theorem isChar_of_mem_pastedChars {cs : List Bytes} (hcs : ∀ c ∈ cs, IsChar c) : ∀ n ∈ pastedChars cs, IsChar n := by
  intro n hn
  obtain ⟨hmem, hne⟩ := List.mem_filter.1 hn
  obtain ⟨c, hc, rfl⟩ := List.mem_map.1 hmem
  exact (normalisePasted_isChar (hcs c hc)).resolve_left (by simpa using hne)

section Stream
variable {cap : Nat} [NeZero cap] {input : CBuf cap}

/-- The characters of a paste that fit are put in, one after the other. -/
theorem pasteStream_flatten (input : CBuf cap) {cs : List Bytes} (hcs : ∀ c ∈ cs, IsChar c) :
    (pasteStream input .reset cs.flatten).2.1.bytes =
        input.bytes ++ (fitting cap input.bytes.length (pastedChars cs)).flatten ∧
      (pasteStream input .reset cs.flatten).1.invalidUtf8 = false ∧
      ((pasteStream input .reset cs.flatten).1.overflow = true ↔
        fitting cap input.bytes.length (pastedChars cs) ≠ pastedChars cs) := by
  induction cs generalizing input with
  | nil => simp [pasteStream, pastedChars, fitting, AppendStatus.ok]
  | cons c cs ih =>
    have hc := hcs c List.mem_cons_self
    have ih (input : CBuf cap) := ih input fun d hd => hcs d (List.mem_cons_of_mem _ hd)
    rw [List.flatten_cons, pasteStream_append, pasteStream_isChar hc]
    rcases eq_or_ne (normalisePasted c) [] with hnone | hne
    · have hpasted : pastedChars (c :: cs) = pastedChars cs := by
        unfold pastedChars
        rw [List.map_cons, hnone]
        rfl
      have happend : appendBytes input [] = (⟨true, false, false⟩, input) := rfl
      rw [hnone, happend, hpasted]
      obtain ⟨hbytes, hvalid, hover⟩ := ih input
      exact ⟨hbytes, by simpa [AppendStatus.or] using hvalid, by simpa [AppendStatus.or] using hover⟩
    · have hpasted : pastedChars (c :: cs) = normalisePasted c :: pastedChars cs := by
        unfold pastedChars
        rw [List.map_cons, List.filter_cons, if_pos (decide_eq_true hne)]
      have hchar := (normalisePasted_isChar hc).resolve_left hne
      rw [hpasted, fitting]
      by_cases hfits : input.bytes.length + (normalisePasted c).length < cap
      · have hbytes' : (CBuf.copy cap (input.bytes ++ normalisePasted c)).bytes = input.bytes ++ normalisePasted c := by
          apply CBuf.copy_bytes
          · simp [input.nul_free, hchar.zero_notMem]
          · rwa [List.length_append]
        rw [appendBytes_fits hne hfits, if_pos hfits]
        obtain ⟨hbytes, hvalid, hover⟩ := ih (CBuf.copy cap (input.bytes ++ normalisePasted c))
        rw [hbytes', List.length_append] at hbytes hover
        refine ⟨?_, ?_, ?_⟩
        · rw [hbytes, List.flatten_cons, List.append_assoc]
        · rw [AppendStatus.ok_or]
          exact hvalid
        · rw [AppendStatus.ok_or, hover, Ne, Ne, List.cons.injEq, and_iff_right rfl]
      · rw [appendBytes_full hne hfits, if_neg hfits]
        obtain ⟨hbytes, hvalid, -⟩ := ih input
        refine ⟨hbytes, by simpa [AppendStatus.or] using hvalid, ?_⟩
        have hshort : fitting cap input.bytes.length (pastedChars cs) ≠ normalisePasted c :: pastedChars cs := by
          intro heq
          have hle := length_fitting_le cap input.bytes.length (pastedChars cs)
          rw [heq, List.length_cons] at hle
          omega
        simp [AppendStatus.or, hshort]

end Stream

theorem length_flatten_le {a b : List Bytes} (h : a <+: b) : a.flatten.length ≤ b.flatten.length := by
  obtain ⟨r, rfl⟩ := h
  rw [List.flatten_append, List.length_append]
  exact Nat.le_add_right _ _

section Front
variable {cap : Nat} {os ns : List Bytes} (hos : ∀ c ∈ os, IsChar c) (hns : ∀ c ∈ ns, IsChar c)
include hos hns

theorem cut_chars : cut (fun p => (utf8Decode p).2) (os ++ ns).flatten = os ++ ns :=
  utf8Chars_flatten fun c hc => (List.mem_append.1 hc).elim (hos c) (hns c)

/-- What is put in is a front only where nothing is put in behind the first character that does not fit. -/
theorem fitting_eq_nil_of_front {u v : List Bytes} {c : Bytes} (hsplit : ns = u ++ c :: v)
    (hu : os.flatten.length + u.flatten.length < cap) (hc : cap ≤ os.flatten.length + u.flatten.length + c.length)
    (h : LongestFront (fun p => (utf8Decode p).2) (fun t => t.length < cap) (os ++ ns).flatten
      (os ++ fitting cap os.flatten.length ns).flatten) :
    fitting cap (os.flatten.length + u.flatten.length) v = [] := by
  subst hsplit
  obtain ⟨k, hk⟩ := h.front
  have hfits : (os ++ fitting cap os.flatten.length (u ++ c :: v)).flatten.length < cap := h.fits
  rw [cut_chars hos hns, ← List.append_assoc] at hk
  rw [fitting_append hu, fitting, if_neg (Nat.not_lt.2 hc), ← List.append_assoc] at hk hfits
  rcases Nat.lt_or_ge (os ++ u).length k with hlt | hge
  · -- Behind the front there is the character that does not fit.
    have hnext : (os ++ u) ++ [c] <+: ((os ++ u) ++ c :: v).take k := by
      rw [List.prefix_take_iff]
      refine ⟨⟨v, by simp⟩, ?_⟩
      rw [List.length_append, List.length_singleton]
      exact hlt
    have hle := length_flatten_le hnext
    rw [← hk] at hle
    simp only [List.flatten_append, List.length_append, List.flatten_singleton] at hle hfits
    omega
  · have hle := length_flatten_le (((os ++ u) ++ c :: v).take_prefix_take_left hge)
    rw [← hk, List.take_left, List.flatten_append, List.length_append] at hle
    have hnil : (fitting cap (os.flatten.length + u.flatten.length) v).flatten = [] :=
      List.length_eq_zero_iff.1 (by omega)
    refine List.eq_nil_iff_forall_not_mem.2 fun d hd => ?_
    have hchar := hns d (List.mem_append_right _ (List.mem_cons_of_mem _ (fitting_subset _ _ _ hd)))
    exact hchar.ne_nil (List.flatten_eq_nil_iff.1 hnil d hd)

theorem longest_fitting_iff (hlen : os.flatten.length < cap) :
    LongestFront (fun p => (utf8Decode p).2) (fun t => t.length < cap) (os ++ ns).flatten
        (os ++ fitting cap os.flatten.length ns).flatten ↔
      ∀ u c v, ns = u ++ c :: v → os.flatten.length + u.flatten.length < cap →
        cap ≤ os.flatten.length + u.flatten.length + c.length →
        ∀ d ∈ v, cap ≤ os.flatten.length + u.flatten.length + d.length := by
  constructor
  · intro h u c v hsplit hu hc
    exact fitting_eq_nil.1 (fitting_eq_nil_of_front hos hns hsplit hu hc h)
  · intro hall
    rcases fits_or_stops hlen ns with hfits | ⟨u, c, v, rfl, hu, hc⟩
    · have hfit : fitting cap os.flatten.length ns = ns := by
        have happend := @fitting_append cap os.flatten.length ns [] hfits
        rwa [List.append_nil, fitting, List.append_nil] at happend
      rw [hfit]
      refine ⟨front_self _, ?_, fun t ht _ => ht.isPrefix⟩
      rwa [List.flatten_append, List.length_append]
    · rw [fitting_append hu, fitting, if_neg (Nat.not_lt.2 hc), fitting_eq_nil.2 (hall u c v rfl hu hc),
        List.append_nil]
      refine longestFront_of_stop ((cut_chars hos hns).trans (List.append_assoc ..).symm) ?_ ?_ ?_
      · exact fun a b _ _ hab hb => Nat.lt_of_le_of_lt hab.length_le hb
      · rwa [List.flatten_append, List.length_append]
      · rintro d more hd
        obtain ⟨rfl, rfl⟩ := List.cons.inj hd
        rw [List.flatten_append, List.flatten_append, List.length_append, List.length_append, List.flatten_singleton]
        exact Nat.not_lt.2 hc

end Front

/-- A valid paste into a valid text leaves the longest front that fits exactly where nothing that is behind the first
character that does not fit would have fitted instead. -/
theorem paste_keeps_front_iff {cap : Nat} [NeZero cap] (input : CBuf cap) (hinput : utf8IsValidString input.bytes = true)
    (text : Bytes) (htext : utf8IsValidString text = true) :
    PasteKeepsFront input text ↔
      ∀ u c v, utf8Chars (normalisePasted text) = u ++ c :: v → input.bytes.length + u.flatten.length < cap →
        cap ≤ input.bytes.length + u.flatten.length + c.length →
        ∀ d ∈ v, cap ≤ input.bytes.length + u.flatten.length + d.length := by
  obtain ⟨os, hold, hos⟩ := (valid_iff input.bytes).1 hinput
  obtain ⟨cs, rfl, hcs⟩ := (valid_iff text).1 htext
  obtain ⟨hbytes, hvalid, hover⟩ := pasteStream_flatten input hcs
  have hns := isChar_of_mem_pastedChars hcs
  have hlen := input.fits
  rw [← hold] at hlen
  have hiff := longest_fitting_iff hos hns hlen
  have hflag : (pasteStream input .reset cs.flatten).1.overflow = true ↔
      (pasteStream input .reset cs.flatten).2.1.bytes ≠ input.bytes ++ normalisePasted cs.flatten := by
    rw [hover, hbytes, ← flatten_pastedChars, Ne, Ne, List.append_cancel_left_eq]
    refine not_congr ⟨congrArg List.flatten, fun heq => ?_⟩
    have hsame := congrArg utf8Chars heq
    rwa [utf8Chars_flatten hns, utf8Chars_flatten fun d hd => hns d (fitting_subset _ _ _ hd)] at hsame
  rw [List.flatten_append, List.flatten_append, hold, flatten_pastedChars] at hiff
  rw [← flatten_pastedChars, utf8Chars_flatten hns, ← hiff, ← hbytes]
  exact ⟨fun h => h.kept, fun h => ⟨h, hflag, hvalid⟩⟩

theorem paste_keeps_front_iff_greeting : PasteKeepsFront (CBuf.copy 6 (lit "hi ")) (lit "中文文") := by
  apply (paste_keeps_front_iff (CBuf.copy 6 (lit "hi ")) (by decide) (lit "中文文") (by decide)).2
  have hall : ∀ x ∈ utf8Chars (normalisePasted (lit "中文文")), x.length = 3 := by decide
  intro u c v hsplit hu hc d hd
  rw [hsplit] at hall
  have hc' := hall c (by simp)
  have hd' := hall d (by simp [hd])
  omega

/-- The character that does not fit is left out of the middle of the paste. -/
theorem paste_skips_a_character : ¬ PasteKeepsFront (CBuf.copy 3 []) (lit "aéb") := by
  have hleft : (pasteStream (CBuf.copy 3 []) .reset (lit "aéb")).2.1.bytes = lit "ab" := by decide
  intro h
  have hfront := h.kept.front.isPrefix
  rw [hleft] at hfront
  exact absurd hfront (by decide)

end Tnt
