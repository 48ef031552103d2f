import Tnt.Utf8Cuts
/-!
# Text with escape sequences (`utf8.c`)

`utf8_ansi_truncate` copies the front of a text that fits, and it copies an escape sequence in one piece as far as
`skip_ansi_sequence` skips it. An escape in front of a longer character is skipped with the first byte of it, and a
control sequence without its end is not skipped, so that a copy can end inside of either: `utf8AnsiTruncate_safe_iff`
says when.
-/
open BaseLib

namespace Tnt

/-- `ANSI_RESET` -/
def ansiReset : Bytes := esc :: lit "[0m"

/-- The bytes that end a control sequence. -/
def isCsiFinal (c : UInt8) : Bool := 0x40 ≤ c && c ≤ 0x7E

/-- `skip_ansi_sequence`: how many bytes it skips. -/
def skipAnsiSequence (p : Bytes) : Nat :=
  if byteAt p 0 ≠ esc then 0
  else if byteAt p 1 = 0x5B then
    match (p.drop 2).findIdx? isCsiFinal with
    | some i => i + 3
    | none => 1
  else if byteAt p 1 ≠ 0 then 2
  else 1

/-- How far the loops over a text with escape sequences step. -/
def ansiStep (p : Bytes) : Nat := if byteAt p 0 = esc then skipAnsiSequence p else (utf8Decode p).2

/-- The pieces that these loops visit. -/
def ansiPieces (s : Bytes) : List Bytes := cut ansiStep s

def ansiPieceWidth (c : Bytes) : Nat := if byteAt c 0 = esc then 0 else utf8CharWidth (utf8Decode c).1

/-- `utf8_ansi_string_width` -/
def utf8AnsiStringWidth (s : Bytes) : Nat := ((ansiPieces s).map ansiPieceWidth).sum

/-- The locals of `utf8_ansi_truncate`, with what it has copied. -/
structure AnsiCopy where
  dst : Bytes
  width : Nat
  copiedAnsi : Bool
  lastAnsiWasReset : Bool
  truncated : Bool

/-- The loop of `utf8_ansi_truncate`. -/
def ansiTruncateLoop (dstSize : Nat) (maxWidth : Int) (s : AnsiCopy) : List Bytes → AnsiCopy
  | [] => s
  | c :: cs =>
    if byteAt c 0 = esc then
      if s.dst.length + c.length ≥ dstSize then { s with truncated := true }
      else
        ansiTruncateLoop dstSize maxWidth
          { s with dst := s.dst ++ c, copiedAnsi := true, lastAnsiWasReset := c == ansiReset } cs
    else
      let charWidth := utf8CharWidth (utf8Decode c).1
      if (s.width + charWidth : Nat) > maxWidth then { s with truncated := true }
      else if s.dst.length + c.length ≥ dstSize then { s with truncated := true }
      else ansiTruncateLoop dstSize maxWidth { s with dst := s.dst ++ c, width := s.width + charWidth } cs

/-- `utf8_ansi_truncate`: the string it leaves in `dst`, where it writes there. -/
def utf8AnsiTruncate (src : Bytes) (dstSize : Nat) (maxWidth : Int) : Option Bytes :=
  if dstSize = 0 then none
  else if maxWidth ≤ 0 then some []
  else
    let s := ansiTruncateLoop dstSize maxWidth ⟨[], 0, false, false, false⟩ (ansiPieces src)
    if s.truncated && s.copiedAnsi && !s.lastAnsiWasReset && s.dst.length + ansiReset.length < dstSize then
      some (s.dst ++ ansiReset)
    else some s.dst

/-! ## What a terminal reads

An escape sequence is an escape and a character, or a control sequence with its final byte. What has no end yet reaches
to the end of the text. -/

/-- How long the escape sequence or the character at the front of a text is. -/
def ansiUnit (p : Bytes) : Nat :=
  if byteAt p 0 ≠ esc then (utf8Decode p).2
  else if byteAt p 1 = 0x5B then
    match (p.drop 2).findIdx? isCsiFinal with
    | some i => i + 3
    | none => p.length
  else if byteAt p 1 ≠ 0 then 1 + (utf8Decode p.tail).2
  else 1

/-- The text fits into the columns and the bytes. -/
def AnsiFits (dstSize : Nat) (maxWidth : Int) (t : Bytes) : Prop :=
  utf8AnsiStringWidth t ≤ maxWidth ∧ t.length < dstSize

/-- A front of `src` that ends in no escape sequence, and perhaps the reset. -/
def IsAnsiCut (src dst : Bytes) : Prop := ∃ t, Front ansiUnit src t ∧ (dst = t ∨ dst = t ++ ansiReset)

/-- What is asked of the string that is left in `dst`. -/
structure TruncatedSafely (src : Bytes) (dstSize : Nat) (maxWidth : Int) (dst : Bytes) : Prop where
  cut : IsAnsiCut src dst
  valid : utf8IsValidString dst = true
  fits : AnsiFits dstSize maxWidth dst
  whole : AnsiFits dstSize maxWidth src → dst = src

/-! ## Pieces and sequences -/

theorem skipAnsiSequence_pos {p : Bytes} (h : byteAt p 0 = esc) : 0 < skipAnsiSequence p := by
  unfold skipAnsiSequence
  rw [if_neg (not_not.2 h)]
  split
  · split <;> omega
  split <;> omega

theorem skipAnsiSequence_take {p : Bytes} {n : Nat} (hn : 0 < n) (h : skipAnsiSequence p ≤ n) :
    skipAnsiSequence (p.take n) = skipAnsiSequence p := by
  unfold skipAnsiSequence at h ⊢
  rw [byteAt_take hn]
  by_cases hesc : byteAt p 0 = esc
  swap
  · rw [if_pos hesc, if_pos hesc]
  rw [if_neg (not_not.2 hesc)] at h ⊢
  rw [if_neg (not_not.2 hesc)]
  rcases Nat.lt_or_ge 1 n with h1 | h1
  · rw [byteAt_take h1, List.drop_take, List.findIdx?_take]
    cases hfind : (p.drop 2).findIdx? isCsiFinal with
    | none => rfl
    | some i =>
      rw [hfind] at h
      by_cases hcsi : byteAt p 1 = 0x5B
      · rw [if_pos hcsi] at h ⊢
        have hlt : i < n - 2 := by
          change i + 3 ≤ n at h
          omega
        rw [if_pos hcsi, Option.bind_some, Option.guard_pos (by simpa using hlt)]
      · rw [if_neg hcsi, if_neg hcsi]
  · -- Nothing stands behind the escape any more, and it was skipped alone.
    obtain rfl : n = 1 := by omega
    have hend : byteAt (p.take 1) 1 = 0 := by
      unfold byteAt
      rw [List.getD_eq_getElem?_getD, List.getElem?_take_eq_none (Nat.le_refl _)]
      rfl
    rw [hend, if_neg (by decide), if_neg (by decide)]
    split at h
    · rename_i hcsi
      rw [if_pos hcsi]
      split at h
      · omega
      · rfl
    split at h
    · omega
    · rename_i hcsi hnul
      rw [if_neg hcsi, if_neg hnul]

theorem ansiStep_pos {p : Bytes} (hp : p ≠ []) : 0 < ansiStep p := by
  unfold ansiStep
  split
  · rename_i h
    exact skipAnsiSequence_pos h
  · exact (utf8Decode_length hp).1

theorem blockLen_ansiStep {p : Bytes} (hp : p ≠ []) : blockLen ansiStep p = ansiStep p :=
  Nat.max_eq_right (ansiStep_pos hp)

theorem ansiStep_take {p : Bytes} {n : Nat} (hn : 0 < n) (h : ansiStep p ≤ n) : ansiStep (p.take n) = ansiStep p := by
  unfold ansiStep at h ⊢
  rw [byteAt_take hn]
  split
  · rename_i hesc
    rw [if_pos hesc] at h
    exact skipAnsiSequence_take hn h
  · rename_i hesc
    rw [if_neg hesc] at h
    rw [utf8Decode_take h hn]

theorem ansiPieces_take (s : Bytes) (k : Nat) : ansiPieces ((ansiPieces s).take k).flatten = (ansiPieces s).take k := by
  refine cut_flatten_take (fun p n h => ?_) s k
  unfold blockLen at h ⊢
  rw [ansiStep_take (by omega) (by omega)]

/-- The columns of a front are those of its pieces. -/
theorem utf8AnsiStringWidth_take (s : Bytes) (k : Nat) :
    utf8AnsiStringWidth ((ansiPieces s).take k).flatten = (((ansiPieces s).take k).map ansiPieceWidth).sum := by
  rw [utf8AnsiStringWidth, ansiPieces_take]

theorem fits_of_isPrefix {s a b : Bytes} {dstSize : Nat} {maxWidth : Int} (ha : Front ansiStep s a)
    (hb : Front ansiStep s b) (hab : a <+: b) (h : AnsiFits dstSize maxWidth b) : AnsiFits dstSize maxWidth a := by
  obtain ⟨j, rfl⟩ : ∃ j, a = ((ansiPieces s).take j).flatten := ha
  obtain ⟨k, rfl⟩ : ∃ k, b = ((ansiPieces s).take k).flatten := hb
  rcases Nat.le_total j k with hjk | hkj
  · obtain ⟨more, hmore⟩ := (ansiPieces s).take_prefix_take_left hjk
    refine ⟨?_, Nat.lt_of_le_of_lt hab.length_le h.2⟩
    have hle := h.1
    rw [utf8AnsiStringWidth_take, ← hmore, List.map_append, List.sum_append] at hle
    rw [utf8AnsiStringWidth_take]
    omega
  · -- The front with more pieces is the shorter one, so they are the same.
    obtain ⟨more, hmore⟩ := (ansiPieces s).take_prefix_take_left hkj
    rw [← hmore, List.flatten_append] at hab ⊢
    have hnone : more.flatten = [] := by
      have hle := hab.length_le
      rw [List.length_append] at hle
      exact List.length_eq_zero_iff.1 (by omega)
    rwa [hnone, List.append_nil]

/-! ## Sequences are made of pieces -/

theorem ansiStep_escape {p : Bytes} (h : byteAt p 0 = esc) : ansiStep p =
    if byteAt p 1 = 0x5B then
      match (p.drop 2).findIdx? isCsiFinal with
      | some i => i + 3
      | none => 1
    else if byteAt p 1 ≠ 0 then 2
    else 1 := by
  rw [ansiStep, if_pos h, skipAnsiSequence, if_neg (not_not.2 h)]

theorem ansiUnit_escape {p : Bytes} (h : byteAt p 0 = esc) : ansiUnit p =
    if byteAt p 1 = 0x5B then
      match (p.drop 2).findIdx? isCsiFinal with
      | some i => i + 3
      | none => p.length
    else if byteAt p 1 ≠ 0 then 1 + (utf8Decode p.tail).2
    else 1 := by
  rw [ansiUnit, if_neg (not_not.2 h)]

theorem ansiUnit_pos {p : Bytes} (hp : p ≠ []) : 0 < ansiUnit p := by
  have hlen := List.length_pos_iff.2 hp
  unfold ansiUnit
  split
  · exact (utf8Decode_length hp).1
  split
  · split <;> omega
  split <;> omega

theorem blockLen_ansiUnit {p : Bytes} (hp : p ≠ []) : blockLen ansiUnit p = ansiUnit p :=
  Nat.max_eq_right (ansiUnit_pos hp)

/-- A piece that is one in front of any text. -/
def Solid (c : Bytes) : Prop := c ≠ [] ∧ ∀ l, ansiStep (c ++ l) = c.length

theorem solid_reads (c l : Bytes) (h : Solid c) : c ≠ [] ∧ blockLen ansiStep (c ++ l) = c.length := by
  refine ⟨h.1, ?_⟩
  rw [blockLen_ansiStep (List.append_ne_nil_of_left_ne_nil h.1 l), h.2]

theorem solid_continuation {b : UInt8} (hb : isContinuation b = true) : Solid [b] := by
  refine ⟨List.cons_ne_nil _ _, fun l => ?_⟩
  have hrange := (isContinuation_iff b).1 hb
  have hesc : byteAt ([b] ++ l) 0 ≠ esc := by
    rintro h
    obtain rfl : b = esc := h
    exact absurd hrange.1 (by decide)
  have hlen : utf8ByteLength b = 1 := by
    by_contra hne
    have hpos := utf8ByteLength_pos b
    have := utf8ByteLength_of_two_le (b := b) (by omega)
    omega
  have hlen' : utf8ByteLength (byteAt ([b] ++ l) 0) = 1 := hlen
  rw [ansiStep, if_neg hesc]
  simp only [utf8Decode, hlen']
  rfl

theorem solid_char {c : Bytes} (hc : IsChar c) (hesc : byteAt c 0 ≠ esc) : Solid c := by
  refine ⟨hc.ne_nil, fun l => ?_⟩
  rw [ansiStep, byteAt_append hc.length.1, if_neg hesc, utf8Decode_isChar hc]

/-- An escape and the first byte behind it. -/
theorem solid_escape {b : UInt8} (hb : b ≠ 0) (hcsi : b ≠ 0x5B) : Solid [esc, b] := by
  refine ⟨List.cons_ne_nil _ _, fun l => ?_⟩
  have h0 : byteAt ([esc, b] ++ l) 0 = esc := rfl
  have h1 : byteAt ([esc, b] ++ l) 1 = b := rfl
  rw [ansiStep_escape h0, h1, if_neg hcsi, if_pos hb]
  rfl

theorem findIdx?_csi {a : Bytes} {f : UInt8} (ha : ∀ b ∈ a, isCsiFinal b = false) (hf : isCsiFinal f = true) (l : Bytes) :
    (a ++ f :: l).findIdx? isCsiFinal = some a.length := by
  induction a with
  | nil => rw [List.nil_append, List.findIdx?_cons, if_pos hf]; rfl
  | cons b a ih =>
    rw [List.cons_append, List.findIdx?_cons, ha b List.mem_cons_self, if_neg Bool.false_ne_true,
      ih fun c hc => ha c (List.mem_cons_of_mem _ hc)]
    rfl

/-- A control sequence is a piece, and a sequence. -/
theorem csi_reads {a : Bytes} {f : UInt8} (ha : ∀ b ∈ a, isCsiFinal b = false) (hf : isCsiFinal f = true) (l : Bytes) :
    ansiStep (esc :: 0x5B :: (a ++ [f]) ++ l) = a.length + 3 ∧
      ansiUnit (esc :: 0x5B :: (a ++ [f]) ++ l) = a.length + 3 := by
  have hlist : esc :: 0x5B :: (a ++ [f]) ++ l = esc :: 0x5B :: (a ++ f :: l) := by simp
  have h0 : byteAt (esc :: 0x5B :: (a ++ f :: l)) 0 = esc := rfl
  have h1 : byteAt (esc :: 0x5B :: (a ++ f :: l)) 1 = 0x5B := rfl
  have hdrop : (esc :: 0x5B :: (a ++ f :: l)).drop 2 = a ++ f :: l := rfl
  rw [hlist]
  constructor
  · rw [ansiStep_escape h0, if_pos h1, hdrop, findIdx?_csi ha hf]
  · rw [ansiUnit_escape h0, if_pos h1, hdrop, findIdx?_csi ha hf]

theorem solid_csi {a : Bytes} {f : UInt8} (ha : ∀ b ∈ a, isCsiFinal b = false) (hf : isCsiFinal f = true) :
    Solid (esc :: 0x5B :: (a ++ [f])) :=
  ⟨List.cons_ne_nil _ _, fun l => (csi_reads ha hf l).1.trans (by simp)⟩

/-- What `utf8_decode` reads behind the first byte of a longer character. -/
theorem utf8Decode_tail {p : Bytes} (hp : p ≠ []) : ∀ b ∈ (p.take (utf8Decode p).2).tail, isContinuation b = true := by
  intro b hb
  obtain ⟨hpos, hle⟩ := utf8Decode_length hp
  by_cases hbad : ((tailBytes p (utf8ByteLength (byteAt p 0))).any fun b => b == 0 || !isContinuation b) = true
  · have hone : (utf8Decode p).2 = 1 := by
      simp only [utf8Decode]
      rw [if_pos hbad]
    rw [hone] at hb
    obtain ⟨c, t, rfl⟩ := List.exists_cons_of_ne_nil hp
    cases hb
  · have hlen : (utf8Decode p).2 = utf8ByteLength (byteAt p 0) := by
      simp only [utf8Decode]
      rw [if_neg hbad]
    rw [Bool.not_eq_true, List.any_eq_false] at hbad
    have htail := tailBytes_self (p.take (utf8Decode p).2)
    rw [List.length_take, Nat.min_eq_left hle, tailBytes_take (Nat.le_refl _), hlen] at htail
    rw [hlen, ← htail] at hb
    have hgood := hbad b hb
    simp only [Bool.or_eq_true, not_or, Bool.not_eq_true', Bool.not_eq_false] at hgood
    exact hgood.2

/-- The pieces of an escape in front of a longer character. -/
theorem tiled_escape {d : Bytes} (h0 : byteAt d 0 ≠ 0) (hcsi : byteAt d 0 ≠ 0x5B)
    (htail : ∀ b ∈ d.tail, isContinuation b = true) : Tiled Solid (esc :: d) := by
  cases d with
  | nil => exact absurd rfl h0
  | cons b t =>
    refine ⟨[esc, b] :: t.map fun c => [c], ?_, ?_⟩
    · rw [List.flatten_cons, ← List.flatMap_def, List.flatMap_singleton', List.cons_append, List.cons_append,
        List.nil_append]
    · intro c hc
      rcases List.mem_cons.1 hc with rfl | hc
      · exact solid_escape h0 hcsi
      · obtain ⟨x, hx, rfl⟩ := List.mem_map.1 hc
        exact solid_continuation (htail x hx)

/-- The sequence at the front of a text is made of pieces. -/
theorem front_ansiUnit (l : Bytes) (hl : l ≠ []) : Front ansiStep l (l.take (blockLen ansiUnit l)) := by
  rw [blockLen_ansiUnit hl]
  have hsame (h : ansiUnit l = ansiStep l) : Front ansiStep l (l.take (ansiUnit l)) := by
    rw [h, ← blockLen_ansiStep hl]
    exact front_block hl
  by_cases hesc : byteAt l 0 = esc
  swap
  · exact hsame (by rw [ansiUnit, ansiStep, if_pos hesc, if_neg hesc])
  by_cases hcsi : byteAt l 1 = 0x5B
  · cases hfind : (l.drop 2).findIdx? isCsiFinal with
    | some i =>
      apply hsame
      rw [ansiUnit_escape hesc, ansiStep_escape hesc, if_pos hcsi, if_pos hcsi, hfind]
    | none =>
      have hall : ansiUnit l = l.length := by
        rw [ansiUnit_escape hesc, if_pos hcsi, hfind]
      rw [hall, List.take_length]
      exact front_self l
  by_cases hend : byteAt l 1 = 0
  · apply hsame
    rw [ansiUnit_escape hesc, ansiStep_escape hesc, if_neg hcsi, if_neg hcsi, if_neg (not_not.2 hend),
      if_neg (not_not.2 hend)]
  · -- An escape and a character: the bytes of the character behind its first one are pieces of their own.
    obtain ⟨b, r, rfl⟩ := List.exists_cons_of_ne_nil hl
    obtain rfl : b = esc := hesc
    have hr : r ≠ [] := by
      rintro rfl
      exact hend rfl
    have hunit : ansiUnit (esc :: r) = 1 + (utf8Decode r).2 := by
      rw [ansiUnit_escape rfl, if_neg hcsi, if_pos hend]
      rfl
    obtain ⟨hpos, hle⟩ := utf8Decode_length hr
    have hfirst : byteAt (r.take (utf8Decode r).2) 0 = byteAt r 0 := byteAt_take hpos
    have hbyte : byteAt (esc :: r) 1 = byteAt r 0 := rfl
    rw [hbyte] at hcsi hend
    obtain ⟨cs, hcs, hsolid⟩ := tiled_escape (by rwa [hfirst]) (by rwa [hfirst])
      (utf8Decode_tail hr)
    have hfront : Front ansiStep (cs.flatten ++ r.drop (utf8Decode r).2) cs.flatten :=
      front_flatten solid_reads cs hsolid _
    rw [hcs, List.cons_append, List.take_append_drop] at hfront
    rw [hunit, Nat.add_comm, List.take_succ_cons]
    exact hfront

/-! ## What is copied -/

section Loop
variable {dstSize : Nat} {maxWidth : Int}

/-- The columns of some pieces. -/
def ansiColumns (cs : List Bytes) : Nat := (cs.map ansiPieceWidth).sum

theorem ansiColumns_cons (c : Bytes) (cs : List Bytes) : ansiColumns (c :: cs) = ansiPieceWidth c + ansiColumns cs :=
  List.sum_cons

/-- A piece is copied where it fits behind what has been copied, and the loop ends with the first that does not. -/
theorem ansiTruncateLoop_cons (dstSize : Nat) (s : AnsiCopy) (c : Bytes) (cs : List Bytes) (hw : s.width ≤ maxWidth) :
    (¬ ((s.width + ansiPieceWidth c : Nat) ≤ maxWidth ∧ s.dst.length + c.length < dstSize) ∧
        ansiTruncateLoop dstSize maxWidth s (c :: cs) = { s with truncated := true }) ∨
      (((s.width + ansiPieceWidth c : Nat) ≤ maxWidth ∧ s.dst.length + c.length < dstSize) ∧
        ∃ copied reset, ansiTruncateLoop dstSize maxWidth s (c :: cs) = ansiTruncateLoop dstSize maxWidth
          ⟨s.dst ++ c, s.width + ansiPieceWidth c, copied, reset, s.truncated⟩ cs) := by
  rw [ansiTruncateLoop]
  unfold ansiPieceWidth
  by_cases hesc : byteAt c 0 = esc
  · rw [if_pos hesc, if_pos hesc, Nat.add_zero]
    split
    · rename_i hlen
      exact .inl ⟨fun h => absurd h.2 (Nat.not_lt.2 hlen), rfl⟩
    · rename_i hlen
      exact .inr ⟨⟨hw, Nat.not_le.1 hlen⟩, _, _, rfl⟩
  · rw [if_neg hesc, if_neg hesc]
    dsimp only
    split
    · rename_i hwide
      exact .inl ⟨fun h => absurd h.1 (Int.not_le.2 hwide), rfl⟩
    split
    · rename_i hlen
      exact .inl ⟨fun h => absurd h.2 (Nat.not_lt.2 hlen), rfl⟩
    · rename_i hwide hlen
      exact .inr ⟨⟨Int.not_lt.1 hwide, Nat.not_le.1 hlen⟩, _, _, rfl⟩

/-- The loop copies as many pieces as fit. -/
theorem ansiTruncateLoop_spec (s : AnsiCopy) (cs : List Bytes) (hw : s.width ≤ maxWidth) (hlen : s.dst.length < dstSize)
    (htrunc : s.truncated = false) :
    ∃ kept rest, cs = kept ++ rest ∧ (ansiTruncateLoop dstSize maxWidth s cs).dst = s.dst ++ kept.flatten ∧
      ((s.width + ansiColumns kept : Nat) ≤ maxWidth ∧ s.dst.length + kept.flatten.length < dstSize) ∧
      ((ansiTruncateLoop dstSize maxWidth s cs).truncated = true ↔ rest ≠ []) ∧
      ∀ c more, rest = c :: more →
        ¬ ((s.width + ansiColumns (kept ++ [c]) : Nat) ≤ maxWidth ∧
          s.dst.length + (kept ++ [c]).flatten.length < dstSize) := by
  induction cs generalizing s with
  | nil =>
    refine ⟨[], [], rfl, ?_, ⟨hw, hlen⟩, ?_, fun c more h => by cases h⟩
    · rw [ansiTruncateLoop, List.flatten_nil, List.append_nil]
    · rw [ansiTruncateLoop, htrunc]
      simp
  | cons c cs ih =>
    rcases ansiTruncateLoop_cons dstSize s c cs hw with ⟨hstop, heq⟩ | ⟨hfits, copied, reset, heq⟩
    · rw [heq]
      refine ⟨[], c :: cs, rfl, ?_, ⟨hw, hlen⟩, by simp, fun d more h => ?_⟩
      · rw [List.flatten_nil, List.append_nil]
      · obtain ⟨rfl, -⟩ := List.cons.inj h
        rw [List.nil_append, ansiColumns_cons, List.flatten_singleton]
        exact hstop
    · rw [heq]
      obtain ⟨kept, rest, rfl, hdst, hkept, htr, hmax⟩ :=
        ih ⟨s.dst ++ c, s.width + ansiPieceWidth c, copied, reset, s.truncated⟩ hfits.1
          (by rw [List.length_append]; exact hfits.2) htrunc
      refine ⟨c :: kept, rest, rfl, ?_, ?_, htr, fun d more h => ?_⟩
      · rw [hdst, List.flatten_cons, List.append_assoc]
      · rw [ansiColumns_cons, List.flatten_cons, List.length_append, ← Nat.add_assoc, ← Nat.add_assoc]
        rwa [List.length_append] at hkept
      · have hstop := hmax d more h
        rw [List.cons_append, ansiColumns_cons, List.flatten_cons, List.length_append, ← Nat.add_assoc, ← Nat.add_assoc]
        rwa [List.length_append] at hstop

/-- What the loop copies, and whether it came to the end. -/
theorem ansiTruncateLoop_longest (src : Bytes) (hsize : 0 < dstSize) (hwidth : 0 ≤ maxWidth) :
    LongestFront ansiStep (AnsiFits dstSize maxWidth) src
        (ansiTruncateLoop dstSize maxWidth ⟨[], 0, false, false, false⟩ (ansiPieces src)).dst ∧
      ((ansiTruncateLoop dstSize maxWidth ⟨[], 0, false, false, false⟩ (ansiPieces src)).truncated = false ↔
        (ansiTruncateLoop dstSize maxWidth ⟨[], 0, false, false, false⟩ (ansiPieces src)).dst = src) := by
  obtain ⟨kept, rest, hpieces, hdst, hfits, htrunc, hmax⟩ :=
    ansiTruncateLoop_spec ⟨[], 0, false, false, false⟩ (ansiPieces src) hwidth
      hsize rfl
  rw [List.nil_append] at hdst
  simp only [List.length_nil, Nat.zero_add] at hfits hmax
  have hcolumns {cs more : List Bytes} (hcs : ansiPieces src = cs ++ more) :
      utf8AnsiStringWidth cs.flatten = ansiColumns cs := by
    have hwidth := utf8AnsiStringWidth_take src cs.length
    rwa [hcs, List.take_left] at hwidth
  rw [hdst]
  constructor
  · apply longestFront_of_stop hpieces (fun a b => fits_of_isPrefix)
    · exact ⟨by rw [hcolumns hpieces]; exact hfits.1, hfits.2⟩
    · rintro c more rfl hnext
      have hsplit : ansiPieces src = (kept ++ [c]) ++ more := by rw [hpieces, List.append_assoc, List.singleton_append]
      exact hmax c more rfl ⟨by rw [← hcolumns hsplit]; exact hnext.1, hnext.2⟩
  · have hwhole : (ansiPieces src).flatten = src := cut_flatten src
    rw [hpieces, List.flatten_append] at hwhole
    rw [← Bool.not_eq_true, htrunc, not_not]
    constructor
    · rintro rfl
      rwa [List.flatten_nil, List.append_nil] at hwhole
    · intro heq
      rw [heq] at hwhole
      have hnone := List.flatten_eq_nil_iff.1 (List.append_right_eq_self.1 hwhole)
      refine List.eq_nil_iff_forall_not_mem.2 fun c hc => ?_
      have hmem : c ∈ cut ansiStep src := by
        change c ∈ ansiPieces src
        rw [hpieces]
        exact List.mem_append_right _ hc
      exact ne_nil_of_mem_cut hmem (hnone c hc)

end Loop

/-! ## Where the copy ends -/

theorem isCsiFinal_ascii {f : UInt8} (h : isCsiFinal f = true) : f ≠ 0 ∧ f.toNat < 0x80 := by
  have hall : ∀ f, isCsiFinal f = true → f ≠ 0 ∧ f.toNat < 0x80 := forall_byte (by decide +kernel)
  exact hall f h

/-- A byte of a character that is below 0x80 is the character. -/
theorem isChar_eq_of_head {c : Bytes} (hc : IsChar c) {b : UInt8} (hb : b.toNat < 0x80) (h : byteAt c 0 = b) : c = [b] := by
  apply hc.eq_of_ascii hb
  obtain ⟨x, t, rfl⟩ := List.exists_cons_of_ne_nil hc.ne_nil
  obtain rfl : x = b := h
  exact List.mem_cons_self

/-- A text behind the start of a control sequence, up to the byte that ends it. -/
theorem csi_split {z : Bytes} {i : Nat} (h : z.findIdx? isCsiFinal = some i) :
    ∃ a f more, z = a ++ f :: more ∧ (∀ b ∈ a, isCsiFinal b = false) ∧ isCsiFinal f = true := by
  obtain ⟨hi, hf, hbefore⟩ := List.findIdx?_eq_some_iff_getElem.1 h
  refine ⟨z.take i, z[i], z.drop (i + 1), ?_, fun b hb => ?_, hf⟩
  · rw [List.getElem_cons_drop, List.take_append_drop]
  · obtain ⟨j, hj, rfl⟩ := List.mem_take_iff_getElem.1 hb
    exact Bool.eq_false_iff.2 (hbefore j (by omega))

/-- The sequence at the front of a valid text reaches to its end, or is a valid text that is made of pieces. -/
theorem ansiUnit_valid {l : Bytes} (hvalid : utf8IsValidString l = true) (hl : l ≠ []) : l.length ≤ ansiUnit l ∨
    ∃ b r, l = b ++ r ∧ ansiUnit l = b.length ∧ utf8IsValidString b = true ∧ Tiled Solid b := by
  rcases valid_cases hvalid with rfl | ⟨c, r, rfl, hc, hr⟩
  · exact absurd rfl hl
  by_cases hesc : byteAt c 0 = esc
  swap
  · -- A character.
    right
    refine ⟨c, r, rfl, ?_, valid_of_isChar hc, [c], List.flatten_singleton, ?_⟩
    · rw [ansiUnit, byteAt_append hc.length.1, if_pos hesc, utf8Decode_isChar hc]
    · intro d hd
      rw [List.mem_singleton.1 hd]
      exact solid_char hc hesc
  obtain rfl := isChar_eq_of_head hc (by decide) hesc
  have h0 : byteAt ([esc] ++ r) 0 = esc := rfl
  rcases valid_cases hr with rfl | ⟨d, z, rfl, hd, -⟩
  · exact .inl (ansiUnit_pos hl)
  have h1 : byteAt ([esc] ++ (d ++ z)) 1 = byteAt d 0 := byteAt_append hd.length.1 ..
  by_cases hcsi : byteAt d 0 = 0x5B
  · obtain rfl := isChar_eq_of_head hd (by decide) hcsi
    have hdrop : ([esc] ++ ([0x5B] ++ z)).drop 2 = z := rfl
    cases hfind : z.findIdx? isCsiFinal with
    | none =>
      left
      rw [ansiUnit_escape h0, h1, if_pos hcsi, hdrop, hfind]
    | some i =>
      right
      obtain ⟨a, f, more, rfl, ha, hf⟩ := csi_split hfind
      obtain ⟨hne, hlow⟩ := isCsiFinal_ascii hf
      have hlist : [esc] ++ ([0x5B] ++ (a ++ f :: more)) = esc :: 0x5B :: (a ++ [f]) ++ more := by simp
      refine ⟨esc :: 0x5B :: (a ++ [f]), more, hlist, ?_, ?_, [_], List.flatten_singleton, ?_⟩
      · rw [hlist, (csi_reads ha hf more).2]
        simp
      · have hsplit : [esc] ++ ([0x5B] ++ (a ++ f :: more)) = (esc :: 0x5B :: a) ++ f :: more := rfl
        rw [hsplit, valid_split hne hlow, Bool.and_eq_true] at hvalid
        have hjoin : esc :: 0x5B :: (a ++ [f]) = (esc :: 0x5B :: a) ++ f :: [] := rfl
        rw [hjoin, valid_split hne hlow, hvalid.1]
        rfl
      · intro b hb
        rw [List.mem_singleton.1 hb]
        exact solid_csi ha hf
  · -- An escape in front of a character.
    right
    have hnul : byteAt d 0 ≠ 0 := by
      obtain ⟨b, t, rfl⟩ := List.exists_cons_of_ne_nil hd.ne_nil
      rintro rfl
      exact hd.zero_notMem List.mem_cons_self
    refine ⟨[esc] ++ d, z, (List.append_assoc ..).symm, ?_, ?_, tiled_escape hnul hcsi hd.tail⟩
    · rw [ansiUnit_escape h0, h1, if_neg hcsi, if_pos hnul]
      change 1 + (utf8Decode (d ++ z)).2 = _
      rw [utf8Decode_isChar hd, List.length_append]
      rfl
    · rw [valid_append (valid_of_isChar hc)]
      exact valid_of_isChar hd

/-- In front of a sequence there is a valid text that is made of pieces. -/
theorem front_valid {l t : Bytes} (hvalid : utf8IsValidString l = true) (ht : Front ansiUnit l t) :
    utf8IsValidString t = true ∧ (t = l ∨ Tiled Solid t) := by
  induction l using blocks_induction ansiUnit generalizing t with
  | hnil =>
    obtain rfl := List.prefix_nil.1 ht.isPrefix
    exact ⟨hvalid, .inl rfl⟩
  | hstep l hne ih =>
    rcases (front_step hne).1 ht with rfl | ⟨t', rfl, ht'⟩
    · exact ⟨valid_nil, .inr (Tiled.nil _)⟩
    rw [blockLen_ansiUnit hne] at ht' ih ⊢
    rcases ansiUnit_valid hvalid hne with hall | ⟨b, r, hl, hlen, hb, hsolid⟩
    · rw [List.drop_of_length_le hall] at ht'
      obtain rfl := List.prefix_nil.1 ht'.isPrefix
      rw [List.take_of_length_le hall, List.append_nil]
      exact ⟨hvalid, .inl rfl⟩
    · rw [hlen, hl, List.drop_left] at ht' ih
      rw [hlen, hl, List.take_left]
      rw [hl, valid_append hb] at hvalid
      obtain ⟨hvalid', hrest⟩ := ih hvalid ht'
      refine ⟨by rwa [valid_append hb], ?_⟩
      rcases hrest with rfl | htiled
      · exact .inl rfl
      · exact .inr (hsolid.append htiled)

/-- A reset is read as one, as a piece and as a sequence. -/
theorem take_reset (l : Bytes) : (ansiReset ++ l).take (blockLen ansiStep (ansiReset ++ l)) = ansiReset ∧
    (ansiReset ++ l).take (blockLen ansiUnit (ansiReset ++ l)) = ansiReset := by
  have hne : ansiReset ++ l ≠ [] := List.cons_ne_nil _ _
  have hzero : ∀ b ∈ lit "0", isCsiFinal b = false := by
    intro b hb
    rw [List.mem_singleton.1 hb]
    rfl
  obtain ⟨hstep, hunit⟩ := csi_reads hzero (show isCsiFinal 0x6D = true from rfl) l
  rw [blockLen_ansiStep hne, blockLen_ansiUnit hne]
  exact ⟨congrArg (List.take · (ansiReset ++ l)) hstep, congrArg (List.take · (ansiReset ++ l)) hunit⟩

/-- The reset has no columns, behind a text that is made of pieces. -/
theorem utf8AnsiStringWidth_reset {t : Bytes} (ht : Tiled Solid t) :
    utf8AnsiStringWidth (t ++ ansiReset) = utf8AnsiStringWidth t := by
  unfold utf8AnsiStringWidth ansiPieces
  rw [cut_append_of_tiled solid_reads ht, List.map_append, List.sum_append]
  rfl

section Truncate
variable {src : Bytes} {dstSize : Nat} {maxWidth : Int}

/-- What the loop has copied, and the reset where something is left and there is room for it. -/
theorem utf8AnsiTruncate_cases (hsize : 0 < dstSize) (hwidth : 0 < maxWidth) :
    ∃ kept dst, utf8AnsiTruncate src dstSize maxWidth = some dst ∧
      LongestFront ansiStep (AnsiFits dstSize maxWidth) src kept ∧
      (dst = kept ∨ dst = kept ++ ansiReset ∧ kept ≠ src ∧ dst.length < dstSize) := by
  obtain ⟨hkept, htrunc⟩ := ansiTruncateLoop_longest src hsize (Int.le_of_lt hwidth)
  rw [utf8AnsiTruncate, if_neg (Nat.ne_of_gt hsize), if_neg (Int.not_le.2 hwidth)]
  generalize ansiTruncateLoop dstSize maxWidth ⟨[], 0, false, false, false⟩ (ansiPieces src) = s at hkept htrunc
  dsimp only
  split
  · rename_i hreset
    simp only [Bool.and_eq_true, decide_eq_true_eq] at hreset
    refine ⟨s.dst, s.dst ++ ansiReset, rfl, hkept, .inr ⟨rfl, fun heq => ?_, ?_⟩⟩
    · rw [htrunc.2 heq] at hreset
      exact Bool.false_ne_true hreset.1.1.1
    · rw [List.length_append]
      exact hreset.2
  · exact ⟨s.dst, s.dst, rfl, hkept, .inl rfl⟩

/-- The copy is safe where it does not end in a sequence. -/
theorem truncatedSafely_iff (hvalid : utf8IsValidString src = true) {kept dst : Bytes}
    (hkept : LongestFront ansiStep (AnsiFits dstSize maxWidth) src kept)
    (hdst : dst = kept ∨ dst = kept ++ ansiReset ∧ kept ≠ src ∧ dst.length < dstSize) :
    TruncatedSafely src dstSize maxWidth dst ↔ Front ansiUnit src kept := by
  have hwhole (h : AnsiFits dstSize maxWidth src) : kept = src :=
    hkept.front.isPrefix.eq_of_length_le (hkept.longest src (front_self src) h).length_le
  obtain ⟨rest, hrest⟩ := hkept.front.isPrefix
  constructor
  · rintro ⟨⟨t, ht, hcut⟩, -, hfits, -⟩
    rcases hdst with rfl | ⟨rfl, -, -⟩
    · rcases hcut with rfl | rfl
      · exact ht
      · -- The reset is the next sequence of the text.
        rw [← hrest, List.append_assoc] at ht ⊢
        have hnext := ht.next (List.cons_ne_nil _ _)
        rwa [(take_reset rest).2] at hnext
    · rcases hcut with heq | heq
      · -- A reset that stands in the text would have been copied.
        obtain ⟨more, hmore⟩ := heq ▸ ht.isPrefix
        have hfront := hkept.front
        rw [← hmore, List.append_assoc] at hfront
        have hnext := hfront.next (List.cons_ne_nil _ _)
        rw [(take_reset more).1, ← List.append_assoc, hmore] at hnext
        have hle := (hkept.longest _ hnext hfits).length_le
        rw [List.length_append] at hle
        exact absurd (show ansiReset.length = 4 from rfl) (by omega)
      · rw [List.append_cancel_right heq]
        exact ht
  · intro ht
    obtain ⟨hkv, hsolid⟩ := front_valid hvalid ht
    rcases hdst with rfl | ⟨rfl, hne, hlen⟩
    · exact ⟨⟨dst, ht, .inl rfl⟩, hkv, hkept.fits, hwhole⟩
    · have hwidth := utf8AnsiStringWidth_reset (hsolid.resolve_left hne)
      refine ⟨⟨kept, ht, .inr rfl⟩, ?_, ⟨?_, hlen⟩, fun h => absurd (hwhole h) hne⟩
      · rw [valid_append hkv]
        rfl
      · rw [hwidth]
        exact hkept.fits.1

end Truncate

/-- A text is truncated safely exactly where the copy cannot stop inside of a sequence: whenever as much of a sequence
as one step passes fits, so does all of it. -/
theorem utf8AnsiTruncate_safe_iff (src : Bytes) (hvalid : utf8IsValidString src = true) (dstSize : Nat)
    (hsize : 1 ≤ dstSize) (maxWidth : Int) (hwidth : 0 < maxWidth) :
    (∃ dst, utf8AnsiTruncate src dstSize maxWidth = some dst ∧ TruncatedSafely src dstSize maxWidth dst) ↔
      ∀ u v, u ++ v = src → v ≠ [] → Front ansiUnit src u →
        AnsiFits dstSize maxWidth (u ++ v.take (ansiStep v)) →
        AnsiFits dstSize maxWidth (u ++ v.take (ansiUnit v)) := by
  obtain ⟨kept, dst, heq, hkept, hdst⟩ : ∃ kept dst, utf8AnsiTruncate src dstSize maxWidth = some dst ∧ _ :=
    utf8AnsiTruncate_cases hsize hwidth
  have hiff := hkept.coarse_iff front_ansiUnit fun a b => fits_of_isPrefix
  rw [heq]
  simp only [Option.some.injEq, exists_eq_left']
  rw [truncatedSafely_iff hvalid hkept hdst, hiff]
  constructor
  · intro h u v huv hv hu hfits
    have hall := h u v huv hv hu
    rw [blockLen_ansiStep hv, blockLen_ansiUnit hv] at hall
    exact hall hfits
  · intro h u v huv hv hu hfits
    rw [blockLen_ansiUnit hv]
    rw [blockLen_ansiStep hv] at hfits
    exact h u v huv hv hu hfits

theorem utf8AnsiTruncate_safe_iff_red :
    ∃ dst, utf8AnsiTruncate (esc :: lit "[31mhé") 16 1 = some dst ∧ TruncatedSafely (esc :: lit "[31mhé") 16 1 dst := by
  apply (utf8AnsiTruncate_safe_iff (esc :: lit "[31mhé") (by decide) 16 (by decide) 1 (by decide)).2
  intro u v huv hv hu hfits
  have hsame : ∀ k < 9, ansiUnit ((esc :: lit "[31mhé").drop k) = ansiStep ((esc :: lit "[31mhé").drop k) := by decide
  have hlen := congrArg List.length huv
  rw [List.length_append, show (esc :: lit "[31mhé").length = 8 from rfl] at hlen
  have hunit := hsame u.length (by omega)
  rw [← huv, List.drop_left] at hunit
  rwa [hunit]

/-- The first copy ends inside of a character, and the reset behind the second stands for three columns. -/
theorem escapes_are_torn :
    (¬ ∃ dst, utf8AnsiTruncate (lit "a" ++ esc :: lit "é") 16 1 = some dst ∧
      TruncatedSafely (lit "a" ++ esc :: lit "é") 16 1 dst) ∧
    ¬ ∃ dst, utf8AnsiTruncate (lit "a" ++ esc :: lit "[1") 16 1 = some dst ∧
      TruncatedSafely (lit "a" ++ esc :: lit "[1") 16 1 dst := by
  have hchar : utf8AnsiTruncate (lit "a" ++ esc :: lit "é") 16 1 = some (lit "a" ++ [esc, 0xC3] ++ ansiReset) := by
    decide
  have hcsi : utf8AnsiTruncate (lit "a" ++ esc :: lit "[1") 16 1 = some (lit "a" ++ [esc] ++ ansiReset) := by
    decide
  constructor
  · rintro ⟨dst, hdst, hsafe⟩
    obtain rfl := Option.some.inj (hchar.symm.trans hdst)
    exact absurd hsafe.valid (by decide)
  · rintro ⟨dst, hdst, hsafe⟩
    obtain rfl := Option.some.inj (hcsi.symm.trans hdst)
    exact absurd hsafe.fits.1 (by decide)

end Tnt
