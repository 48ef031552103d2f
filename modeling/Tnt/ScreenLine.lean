import Tnt.Lib.TimeFormat
import Tnt.AnsiText
/-!
# Lines of the screen (`tui.c`)

A line of the screen is made of texts and of control sequences. The columns that `utf8_ansi_string_width` counts are
those that `utf8_string_width` counts of its texts (`ansiWidth_spans`).
-/
open BaseLib

namespace Tnt

/-- `ESC [`, some parameters and a final byte. -/
def csi (params : Bytes) (final : UInt8) : Bytes := esc :: 0x5B :: (params ++ [final])

/-- A part of a line. -/
inductive Span
  | control (params : Bytes) (final : UInt8)
  | text (t : Bytes)
  deriving DecidableEq

namespace Span

/-- A style: `ESC [ … m` -/
def sgr (params : Bytes) : Span := .control params 0x6D

/-- `ANSI_RESET` -/
def reset : Span := sgr (lit "0")

def bytes : Span → Bytes
  | .control params final => csi params final
  | .text t => t

/-- The columns. -/
def width : Span → Nat
  | .control _ _ => 0
  | .text t => utf8StringWidth t

/-- The text. -/
def plain : Span → Bytes
  | .control _ _ => []
  | .text t => t

end Span

/-- The bytes of a line. -/
def lineBytes (line : List Span) : Bytes := line.flatMap Span.bytes

/-- The columns of a line. -/
def lineWidth (line : List Span) : Nat := (line.map Span.width).sum

/-- A line without its escape sequences. -/
def lineText (line : List Span) : Bytes := line.flatMap Span.plain

/-- The final byte is the first one that can end the sequence. -/
def endsFirst (params : Bytes) (final : UInt8) : Bool := params.all (!isCsiFinal ·) && isCsiFinal final

/-- Control sequences end where they say, and texts have no escape in them and end in front of the first byte of
a character. -/
def Legible : List Span → Prop
  | [] => True
  | .control params final :: line => endsFirst params final = true ∧ Legible line
  | .text t :: line => esc ∉ t ∧ isContinuation (byteAt (lineBytes line) 0) = false ∧ Legible line

theorem length_csi (params : Bytes) (final : UInt8) : (csi params final).length = params.length + 3 := by
  rw [csi, List.length_cons, List.length_cons, List.length_append, List.length_singleton]

section Lines
variable {t a b : Bytes} {span : Span} {line line' : List Span}

@[simp] theorem lineBytes_nil : lineBytes [] = [] := rfl

@[simp] theorem lineBytes_cons : lineBytes (span :: line) = span.bytes ++ lineBytes line := rfl

@[simp] theorem lineBytes_append : lineBytes (line ++ line') = lineBytes line ++ lineBytes line' := List.flatMap_append

@[simp] theorem lineWidth_nil : lineWidth [] = 0 := rfl

@[simp] theorem lineWidth_cons : lineWidth (span :: line) = span.width + lineWidth line := List.sum_cons

@[simp] theorem lineWidth_append : lineWidth (line ++ line') = lineWidth line + lineWidth line' := by
  rw [lineWidth, List.map_append, List.sum_append]
  rfl

theorem length_lineBytes_ite (p : Prop) [Decidable p] :
    (lineBytes (if p then line else [])).length = if p then (lineBytes line).length else 0 :=
  apply_ite (fun line => (lineBytes line).length) p line []

theorem lineWidth_ite (p : Prop) [Decidable p] :
    lineWidth (if p then line else []) = if p then lineWidth line else 0 := apply_ite lineWidth p line []

@[simp] theorem lineText_nil : lineText [] = [] := rfl

@[simp] theorem lineText_cons : lineText (span :: line) = span.plain ++ lineText line := rfl

@[simp] theorem lineText_append : lineText (line ++ line') = lineText line ++ lineText line' := List.flatMap_append

/-- What is read at the front of a text does not depend on a character behind it. -/
theorem utf8Decode_append (ha : a ≠ []) (hb : isContinuation (byteAt b 0) = false) :
    utf8Decode (a ++ b) = utf8Decode a := by
  have hpos := List.length_pos_iff.2 ha
  rcases Nat.lt_or_ge a.length (utf8Decode (a ++ b)).2 with hlt | hge
  · -- The byte behind the text would continue the character.
    have hne : a ++ b ≠ [] := List.append_ne_nil_of_left_ne_nil ha b
    have hle := (utf8Decode_length hne).2
    have htail := utf8Decode_tail hne
    have hmem : byteAt b 0 ∈ ((a ++ b).take (utf8Decode (a ++ b)).2).tail := by
      rw [List.length_append] at hle
      have hfirst : (a ++ b)[a.length]? = some (byteAt b 0) := by
        rw [List.getElem?_append_right (Nat.le_refl _), Nat.sub_self, List.getElem?_eq_getElem (by omega)]
        simp [byteAt, List.getD_eq_getElem?_getD, List.getElem?_eq_getElem (show 0 < b.length by omega)]
      refine List.mem_iff_getElem?.2 ⟨a.length - 1, ?_⟩
      rw [List.getElem?_tail, Nat.sub_add_cancel hpos, List.getElem?_take_of_lt hlt]
      exact hfirst
    rw [htail _ hmem] at hb
    cases hb
  · rw [← utf8Decode_take hge hpos, List.take_left]

/-- The pieces of a text without escapes are those that `utf8_decode` reads, also in front of another text. -/
theorem ansiPieces_text (ht : esc ∉ t) (hb : isContinuation (byteAt b 0) = false) :
    ansiPieces (t ++ b) = utf8Chars t ++ ansiPieces b := by
  have hstep {s : Bytes} (hs : s ≠ []) (hsub : s <:+ t) : byteAt (s ++ b) 0 ≠ esc ∧ byteAt s 0 ≠ esc := by
    rw [byteAt_append (List.length_pos_iff.2 hs), and_self]
    obtain ⟨x, s, rfl⟩ := List.exists_cons_of_ne_nil hs
    rintro rfl
    exact ht (hsub.subset List.mem_cons_self)
  have hpieces : ansiPieces t = utf8Chars t := by
    refine cut_congr fun s hs hsub => ?_
    rw [blockLen, ansiStep, if_neg (hstep hs hsub).2]
    rfl
  rw [← hpieces]
  refine cut_append fun s hs hsub => ?_
  obtain ⟨hboth, hone⟩ := hstep hs hsub
  obtain ⟨hpos, hle⟩ := utf8Decode_length hs
  rw [blockLen, blockLen, ansiStep, ansiStep, if_neg hboth, if_neg hone, utf8Decode_append hs hb]
  exact ⟨rfl, by omega⟩

/-- No piece of a text without escapes begins with one. -/
theorem byteAt_of_mem_utf8Chars (ht : esc ∉ t) {c : Bytes} (hc : c ∈ utf8Chars t) : byteAt c 0 ≠ esc := by
  have hne := ne_nil_of_mem_cut hc
  have hwhole : (utf8Chars t).flatten = t := cut_flatten t
  have hsub : c ⊆ t := by
    intro x hx
    rw [← hwhole]
    exact List.mem_flatten.2 ⟨c, hc, hx⟩
  obtain ⟨x, c, rfl⟩ := List.exists_cons_of_ne_nil hne
  rintro rfl
  exact ht (hsub List.mem_cons_self)

theorem ansiPieces_csi {params : Bytes} {final : UInt8} (h : endsFirst params final = true) (b : Bytes) :
    ansiPieces (csi params final ++ b) = csi params final :: ansiPieces b := by
  rw [endsFirst, Bool.and_eq_true, List.all_eq_true] at h
  have hsolid : ∀ c ∈ [csi params final], Solid c := by
    intro c hc
    rw [List.mem_singleton.1 hc]
    exact solid_csi (fun b hb => by simpa using h.1 b hb) h.2
  have hcut := cut_append_flatten solid_reads [csi params final] hsolid b
  rwa [List.flatten_singleton] at hcut

theorem ansiWidth_text (ht : esc ∉ t) (hb : isContinuation (byteAt b 0) = false) :
    utf8AnsiStringWidth (t ++ b) = utf8StringWidth t + utf8AnsiStringWidth b := by
  have hwidth : ∀ c ∈ utf8Chars t, ansiPieceWidth c = utf8CharWidth (utf8Decode c).1 := fun c hc =>
    if_neg (byteAt_of_mem_utf8Chars ht hc)
  rw [utf8AnsiStringWidth, ansiPieces_text ht hb, List.map_append, List.sum_append, List.map_congr_left hwidth]
  rfl

theorem ansiWidth_csi {params : Bytes} {final : UInt8} (h : endsFirst params final = true) (b : Bytes) :
    utf8AnsiStringWidth (csi params final ++ b) = utf8AnsiStringWidth b := by
  have hnone : ansiPieceWidth (csi params final) = 0 := if_pos rfl
  rw [utf8AnsiStringWidth, ansiPieces_csi h, List.map_cons, List.sum_cons, hnone, Nat.zero_add]
  rfl

/-- The columns of a line are those of its texts. -/
theorem ansiWidth_spans (h : Legible line) : utf8AnsiStringWidth (lineBytes line) = lineWidth line := by
  induction line with
  | nil => rfl
  | cons span line ih =>
    cases span with
    | control params final =>
      obtain ⟨hcontrol, hline⟩ := h
      rw [lineBytes_cons, lineWidth_cons, Span.bytes, ansiWidth_csi hcontrol, ih hline, Span.width, Nat.zero_add]
    | text t =>
      obtain ⟨ht, hnext, hline⟩ := h
      rw [lineBytes_cons, lineWidth_cons, Span.bytes, ansiWidth_text ht hnext, ih hline, Span.width]

/-- A text with the escape sequences removed. -/
def withoutEscapes (s : Bytes) : Bytes := ((ansiPieces s).filter fun c => byteAt c 0 != esc).flatten

/-- What is left of a line without its escape sequences is its text. -/
theorem withoutEscapes_spans (h : Legible line) : withoutEscapes (lineBytes line) = lineText line := by
  induction line with
  | nil => rfl
  | cons span line ih =>
    cases span with
    | control params final =>
      obtain ⟨hcontrol, hline⟩ := h
      rw [lineBytes_cons, lineText_cons, ← ih hline, Span.bytes, withoutEscapes, ansiPieces_csi hcontrol]
      rfl
    | text t =>
      obtain ⟨ht, hnext, hline⟩ := h
      have hkept : (utf8Chars t).filter (fun c => byteAt c 0 != esc) = utf8Chars t :=
        List.filter_eq_self.2 fun c hc => bne_iff_ne.2 (byteAt_of_mem_utf8Chars ht hc)
      have hwhole : (utf8Chars t).flatten = t := cut_flatten t
      rw [lineBytes_cons, lineText_cons, ← ih hline, Span.bytes, withoutEscapes, ansiPieces_text ht hnext,
        List.filter_append, List.flatten_append, hkept, hwhole]
      rfl

/-- Every byte of a text in ASCII takes one column. -/
theorem utf8StringWidth_ascii (h : ∀ b ∈ t, b ≠ 0 ∧ b.toNat < 0x80) : utf8StringWidth t = t.length := by
  have hchars : utf8Chars t = t.map fun b => [b] := by
    have hflat : (t.map fun b => [b]).flatten = t := List.flatMap_singleton' t
    conv_lhs => rw [← hflat]
    refine utf8Chars_flatten fun c hc => ?_
    obtain ⟨b, hb, rfl⟩ := List.mem_map.1 hc
    exact (isChar_single b).2 (h b hb)
  have hone : ∀ b ∈ t, utf8CharWidth (utf8Decode [b]).1 = 1 := by
    intro b hb
    have hdecode := utf8Decode_isChar ((isChar_single b).2 (h b hb)) []
    rw [List.append_nil] at hdecode
    rw [hdecode]
    exact if_pos (h b hb).2
  have hcolumns : ∀ b ∈ t, ((fun c => utf8CharWidth (utf8Decode c).1) ∘ fun b => [b]) b = (fun _ => 1) b := hone
  rw [utf8StringWidth, hchars, List.map_map, List.map_congr_left hcolumns]
  simp

/-- A text in ASCII does not begin inside of a character. -/
theorem ascii_head (h : ∀ b ∈ t, b ≠ 0 ∧ b.toNat < 0x80) : isContinuation (byteAt t 0) = false := by
  cases t with
  | nil => rfl
  | cons b t =>
    have hb : b.toNat < 0x80 := (h b List.mem_cons_self).2
    refine Bool.eq_false_iff.2 fun hcont => ?_
    have := ((isContinuation_iff b).1 hcont).1
    omega

theorem ascii_spaces (n : Nat) : ∀ b ∈ List.replicate n (0x20 : UInt8), b ≠ 0 ∧ b.toNat < 0x80 := by
  intro b hb
  rw [List.eq_of_mem_replicate hb]
  decide

theorem utf8StringWidth_spaces (n : Nat) : utf8StringWidth (List.replicate n 0x20) = n := by
  rw [utf8StringWidth_ascii (ascii_spaces n), List.length_replicate]

/-- Two texts take the columns of both, if the second begins with a character. -/
theorem utf8StringWidth_append (hb : isContinuation (byteAt b 0) = false) :
    utf8StringWidth (a ++ b) = utf8StringWidth a + utf8StringWidth b := by
  have hchars : utf8Chars (a ++ b) = utf8Chars a ++ utf8Chars b := by
    refine cut_append fun s hs hsub => ?_
    obtain ⟨hpos, hle⟩ := utf8Decode_length hs
    rw [blockLen, blockLen, utf8Decode_append hs hb]
    exact ⟨rfl, by omega⟩
  rw [utf8StringWidth, hchars, List.map_append, List.sum_append]
  rfl

/-! ## Numbers -/

/-- A count in an `int`. -/
abbrev IntCount := Fin 2147483648

theorem length_decimal_intCount (n : IntCount) : (decimal n).length ≤ 10 := length_decimal_le (by omega)

/-- A digit is in ASCII, is no escape, and ends no control sequence. -/
theorem digit_text : ∀ b, isDigit b = true → (b ≠ 0 ∧ b.toNat < 0x80) ∧ b ≠ esc ∧ isCsiFinal b = false :=
  forall_byte (by decide +kernel)

theorem ascii_decimal (n : Nat) : ∀ b ∈ decimal n, b ≠ 0 ∧ b.toNat < 0x80 := fun b hb =>
  (digit_text b (isDigit_of_mem_decimal hb)).1

theorem esc_notMem_decimal (n : Nat) : esc ∉ decimal n := fun h => absurd (isDigit_of_mem_decimal h) (by decide)

/-! ## Parts of a line -/

/-- A part of a line that may stand behind any other one. -/
structure Tidy (line : List Span) : Prop where
  legible : Legible line
  head : isContinuation (byteAt (lineBytes line) 0) = false

theorem tidy_nil : Tidy [] := ⟨trivial, rfl⟩

theorem Tidy.append (h : Tidy line) (h' : Tidy line') : Tidy (line ++ line') := by
  have hhead {l : List Span} (hl : isContinuation (byteAt (lineBytes l) 0) = false) :
      isContinuation (byteAt (lineBytes (l ++ line')) 0) = false := by
    rw [lineBytes_append]
    rcases eq_or_ne (lineBytes l) [] with hnil | hne
    · rw [hnil, List.nil_append]
      exact h'.head
    · rwa [byteAt_append (List.length_pos_iff.2 hne)]
  refine ⟨?_, hhead h.head⟩
  obtain ⟨hline, -⟩ := h
  induction line with
  | nil => exact h'.legible
  | cons span line ih =>
    cases span with
    | control params final => exact ⟨hline.1, ih hline.2⟩
    | text t => exact ⟨hline.1, hhead hline.2.1, ih hline.2.2⟩

theorem Tidy.ite (h : Tidy line) (p : Prop) [Decidable p] : Tidy (if p then line else []) := by
  split
  · exact h
  · exact tidy_nil

/-- A text that begins with a character, or is empty. -/
theorem tidy_text (ht : esc ∉ t) (hhead : isContinuation (byteAt t 0) = false) : Tidy [.text t] := by
  refine ⟨⟨ht, rfl, trivial⟩, ?_⟩
  rw [lineBytes_cons, lineBytes_nil, List.append_nil]
  exact hhead

theorem head_control {params : Bytes} {final : UInt8} :
    isContinuation (byteAt (lineBytes (.control params final :: line)) 0) = false := by
  change isContinuation esc = false
  decide

theorem tidy_control {params : Bytes} {final : UInt8} (h : endsFirst params final = true) :
    Tidy [.control params final] :=
  ⟨⟨h, trivial⟩, head_control⟩

/-- A text with a style in front of it, and the reset behind it. -/
theorem tidy_styled {params : Bytes} (h : endsFirst params 0x6D = true) (ht : esc ∉ t) :
    Tidy [.sgr params, .text t, .reset] :=
  ⟨⟨h, ht, head_control, by decide, trivial⟩, head_control⟩

theorem tidy_spaces (n : Nat) : Tidy [.text (List.replicate n 0x20)] :=
  tidy_text (fun h => absurd (List.eq_of_mem_replicate h) (by decide)) (ascii_head (ascii_spaces n))

/-- A valid text begins with a character. -/
theorem valid_head (h : utf8IsValidString t = true) : isContinuation (byteAt t 0) = false := by
  rcases valid_cases h with rfl | ⟨c, r, rfl, hc, -⟩
  · rfl
  · rw [byteAt_append hc.length.1]
    exact hc.head

/-! ## Lines of clean parts -/

/-- A control sequence in ASCII that ends where it says, or a text that has no escapes and begins with a character. -/
def Span.Clean : Span → Prop
  | .control params final => endsFirst params final = true ∧ ∀ b ∈ params, b ≠ 0 ∧ b.toNat < 0x80
  | .text t => esc ∉ t ∧ isContinuation (byteAt t 0) = false

theorem tidy_of_clean (h : ∀ span ∈ line, span.Clean) : Tidy line := by
  induction line with
  | nil => exact tidy_nil
  | cons span line ih =>
    obtain ⟨hspan, hline⟩ := List.forall_mem_cons.1 h
    have hone : Tidy [span] := by
      cases span with
      | control params final => exact tidy_control hspan.1
      | text t => exact tidy_text hspan.1 hspan.2
    exact hone.append (ih hline)

/-- The columns of a line are those of its text. -/
theorem lineWidth_of_clean (h : ∀ span ∈ line, span.Clean) :
    lineWidth line = utf8StringWidth (lineText line) ∧ isContinuation (byteAt (lineText line) 0) = false := by
  induction line with
  | nil => exact ⟨rfl, rfl⟩
  | cons span line ih =>
    obtain ⟨hspan, hline⟩ := List.forall_mem_cons.1 h
    obtain ⟨hwidth, hhead⟩ := ih hline
    rw [lineWidth_cons, lineText_cons, hwidth]
    cases span with
    | control params final => exact ⟨Nat.zero_add _, hhead⟩
    | text t =>
      refine ⟨(utf8StringWidth_append hhead).symm, ?_⟩
      rcases eq_or_ne t [] with rfl | hne
      · exact hhead
      · rw [Span.plain, byteAt_append (List.length_pos_iff.2 hne)]
        exact hspan.2

/-- Styles of four bytes or fewer add seven bytes each at most. -/
theorem length_lineBytes_le (h : ∀ params final, .control params final ∈ line → params.length ≤ 4) :
    (lineBytes line).length ≤ 7 * line.length + (lineText line).length := by
  induction line with
  | nil => exact Nat.le_refl 0
  | cons span line ih =>
    have hle := ih fun params final hmem => h params final (List.mem_cons_of_mem _ hmem)
    rw [lineBytes_cons, lineText_cons, List.length_append, List.length_append, List.length_cons]
    cases span with
    | control params final =>
      have hparams := h params final List.mem_cons_self
      rw [Span.bytes, Span.plain, length_csi, List.length_nil]
      omega
    | text t =>
      rw [Span.bytes, Span.plain]
      omega

theorem valid_of_clean (h : ∀ span ∈ line, span.Clean) (ht : ∀ t, .text t ∈ line → utf8IsValidString t = true) :
    utf8IsValidString (lineBytes line) = true := by
  induction line with
  | nil => exact valid_nil
  | cons span line ih =>
    obtain ⟨hspan, hline⟩ := List.forall_mem_cons.1 h
    have hone : utf8IsValidString span.bytes = true := by
      cases span with
      | control params final =>
        have hfinal := isCsiFinal_ascii (Bool.and_eq_true_iff.1 hspan.1).2
        refine valid_of_ascii fun b hb => ?_
        simp only [Span.bytes, csi, List.mem_cons, List.mem_append, List.not_mem_nil, or_false] at hb
        rcases hb with rfl | rfl | hb | rfl
        · decide
        · decide
        · exact hspan.2 b hb
        · exact hfinal
      | text t => exact ht t List.mem_cons_self
    rw [lineBytes_cons, valid_append hone]
    exact ih hline fun t h => ht t (List.mem_cons_of_mem _ h)

end Lines

end Tnt
