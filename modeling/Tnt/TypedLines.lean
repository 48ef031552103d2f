import Tnt.Lib.Budgets
import Tnt.CommandLine
import Tnt.ScreenLine
/-!
# The lines where the user types (`tui.c`, `tui_status.c`)

A line that is too long for the terminal shows its end. COMMAND mode walks back from the end while the characters fit;
INSERT mode leaves characters out from the front. Either shows the longest end that fits (`LongestLineEnd`), but the
gauge behind the line of INSERT mode may have no room left: `inputLine_fits_iff`.
-/
open BaseLib

namespace Tnt

/-! ## Ends of a line -/

/-- `t` is the rest of `s` behind a number of characters. -/
def IsLineEnd (s t : Bytes) : Prop :=
  ∃ front, s = front ++ t ∧ utf8IsValidString front = true ∧ utf8IsValidString t = true

/-- `t` is the longest end of `s` that begins with a character and takes at most `n` columns. -/
structure LongestLineEnd (n : Nat) (s t : Bytes) : Prop where
  tail : IsLineEnd s t
  columns : utf8StringWidth t ≤ n
  longest : ∀ u, IsLineEnd s u → utf8StringWidth u ≤ n → u <:+ t

/-- The columns of a character. -/
def columnsOf (c : Bytes) : Nat := utf8CharWidth (utf8Decode c).1

section Tails
variable {cs rest fs ts : List Bytes} {n : Nat}

theorem utf8StringWidth_chars (h : ∀ c ∈ cs, IsChar c) : utf8StringWidth cs.flatten = total columnsOf cs := by
  rw [utf8StringWidth, utf8Chars_flatten h]
  rfl

/-- A line that ends where a list of characters does is made of characters. -/
theorem longestLineEnd_of_chars (h : ∀ c ∈ cs, IsChar c) (hend : LongestEnd columnsOf n cs rest) :
    LongestLineEnd n cs.flatten rest.flatten := by
  obtain ⟨front, rfl⟩ := hend.suffix
  obtain ⟨hfront, hrest⟩ := List.forall_mem_append.1 h
  refine ⟨⟨front.flatten, List.flatten_append, ?_, ?_⟩, ?_, ?_⟩
  · exact (valid_iff _).2 ⟨front, rfl, hfront⟩
  · exact (valid_iff _).2 ⟨rest, rfl, hrest⟩
  · rw [utf8StringWidth_chars hrest]
    exact hend.paid
  · rintro u ⟨start, hsplit, hstart, hu⟩ hwidth
    obtain ⟨ss, rfl, hss⟩ := (valid_iff _).1 hstart
    obtain ⟨us, rfl, hus⟩ := (valid_iff _).1 hu
    -- A line is made of characters in one way.
    have hsame : front ++ rest = ss ++ us := by
      rw [← utf8Chars_flatten h, hsplit, ← List.flatten_append,
        utf8Chars_flatten (List.forall_mem_append.2 ⟨hss, hus⟩)]
    rw [utf8StringWidth_chars hus] at hwidth
    obtain ⟨more, rfl⟩ := hend.longest us (hsame ▸ List.suffix_append ss us) hwidth
    exact ⟨more.flatten, by rw [List.flatten_append]⟩

end Tails

/-! ## COMMAND mode -/

/-- The walk back from `p`, for so many characters at most; `width` columns are taken behind `p`. -/
def commandTailLoop (input : Bytes) (tailWidth : Nat) : Nat → Nat → Nat → Nat
  | 0, p, _ => p
  | n + 1, p, width =>
    if p > 0 ∧ width < tailWidth then
      let q := (utf8RemoveLastChar (input.take p)).length
      let charWidth := utf8CharWidth (utf8Decode (input.drop q)).1
      if width + charWidth > tailWidth then p else commandTailLoop input tailWidth n q (width + charWidth)
    else p

/-- `format_command_input_tail` -/
def formatCommandInputTail (input : Bytes) (availWidth displaySize : Nat) : Bytes :=
  if availWidth < 1 then []
  else if utf8StringWidth input ≤ availWidth then input.take (displaySize - 1)
  else
    let tailWidth := availWidth - 1
    if tailWidth < 1 then (lit "<").take (displaySize - 1)
    else
      let tail := commandTailLoop input tailWidth input.length input.length 0
      (lit "<" ++ input.drop tail).take (displaySize - 1)

/-- `avail` of `tui_status_append`, in COMMAND mode. -/
def commandAvail (width : Int) : Nat := if width - 1 < 1 then 1 else (width - 1).toNat

/-- `display` of `tui_status_append`. -/
def commandDisplay (commandInput : CBuf MAX_COMMAND_INPUT_LEN) (width : Int) : Bytes :=
  formatCommandInputTail commandInput.bytes (commandAvail width) (MAX_COMMAND_INPUT_LEN + 2)

/-- What is shown of a line fits: it is the line, or a mark and the longest end of it. -/
structure TailShown (avail : Nat) (input shown : Bytes) : Prop where
  columns : utf8StringWidth shown ≤ avail
  whole : utf8StringWidth input ≤ avail → shown = input
  ending : avail < utf8StringWidth input → ∃ t, shown = lit "<" ++ t ∧ LongestLineEnd (avail - 1) input t
  valid : utf8IsValidString shown = true

section Command
variable {fs ts : List Bytes} {tailWidth n : Nat}

/-- The walk ends in front of the longest end that fits. What it goes back over and what is behind it are characters. -/
theorem commandTailLoop_spec {input : Bytes} (hinput : input = fs.flatten ++ ts.flatten)
    (hchars : ∀ c ∈ fs ++ ts, IsChar c) (hle : total columnsOf ts ≤ tailWidth)
    (hover : tailWidth < total columnsOf (fs ++ ts)) (hn : fs.length ≤ n) :
    ∃ rest, LongestEnd columnsOf tailWidth (fs ++ ts) rest ∧
      input.drop (commandTailLoop input tailWidth n fs.flatten.length (total columnsOf ts)) = rest.flatten := by
  induction n generalizing fs ts with
  | zero =>
    rw [List.eq_nil_of_length_eq_zero (Nat.le_zero.1 hn), List.nil_append] at hover
    omega
  | succ n ih =>
    rcases List.eq_nil_or_concat fs with rfl | ⟨front, c, rfl⟩
    · rw [List.nil_append] at hover
      omega
    · rw [List.concat_eq_append] at *
      have hc : IsChar c := hchars c (by simp)
      have hpos : 0 < columnsOf c := utf8CharWidth_pos _
      have hfront : (front ++ [c]).flatten = front.flatten ++ c := by
        rw [List.flatten_append, List.flatten_singleton]
      have hstop : input.drop (front.flatten ++ c).length = ts.flatten := by
        rw [hinput, hfront, List.drop_left]
      have hq : utf8RemoveLastChar (input.take (front.flatten ++ c).length) = front.flatten := by
        rw [hinput, hfront, List.take_left]
        exact removeLastChar_append hc _
      have hwidth : utf8CharWidth (utf8Decode (input.drop front.flatten.length)).1 = columnsOf c := by
        have hself := utf8Decode_isChar hc []
        rw [List.append_nil] at hself
        rw [hinput, hfront, List.append_assoc, List.drop_left, utf8Decode_isChar hc, columnsOf, hself]
      have hend (h : tailWidth < columnsOf c + total columnsOf ts) :
          LongestEnd columnsOf tailWidth (front ++ [c] ++ ts) ts := by
        rw [List.append_assoc]
        exact longestEnd_of_stop hle h front
      have hp : (front.flatten ++ c).length > 0 := by
        rw [List.length_append]
        exact Nat.lt_of_lt_of_le hc.length.1 (Nat.le_add_left _ _)
      rw [hfront, commandTailLoop, hq]
      dsimp only
      rw [hwidth]
      split
      · split
        · rename_i hfull
          exact ⟨ts, hend (by omega), hstop⟩
        · rename_i hfits
          rw [List.append_assoc, List.singleton_append] at hchars hover ⊢
          rw [Nat.add_comm, ← total_cons]
          refine ih ?_ hchars (by rw [total_cons]; omega) hover ?_
          · rw [hinput, hfront, List.append_assoc]
            rfl
          · simpa using hn
      · rename_i hfull
        exact ⟨ts, hend (by omega), hstop⟩

/-- COMMAND mode shows the end of what is typed. -/
theorem commandDisplay_shown (commandInput : CBuf MAX_COMMAND_INPUT_LEN)
    (hvalid : utf8IsValidString commandInput.bytes = true) (width : Int) :
    TailShown (commandAvail width) commandInput.bytes (commandDisplay commandInput width) := by
  have hroom : commandInput.bytes.length < MAX_COMMAND_INPUT_LEN := commandInput.fits
  have hmark : utf8IsValidString (lit "<") = true ∧ utf8StringWidth (lit "<") = 1 := by decide
  have havail : ¬ commandAvail width < 1 := by
    unfold commandAvail
    split <;> omega
  unfold commandDisplay formatCommandInputTail
  generalize commandAvail width = avail at havail
  obtain ⟨cs, hcs, hchars⟩ := (valid_iff commandInput.bytes).1 hvalid
  have htotal : utf8StringWidth commandInput.bytes = total columnsOf cs := by
    rw [← hcs, utf8StringWidth_chars hchars]
  rw [if_neg havail]
  split
  · rename_i hfits
    rw [List.take_of_length_le (by omega)]
    exact ⟨hfits, fun _ => rfl, fun h => absurd hfits (Nat.not_le.2 h), hvalid⟩
  · rename_i hover
    rw [htotal, Nat.not_le] at hover
    -- A mark, and the longest end that fits behind it.
    have hshown {rest : List Bytes} (hrest : LongestEnd columnsOf (avail - 1) cs rest) :
        TailShown avail commandInput.bytes ((lit "<" ++ rest.flatten).take (MAX_COMMAND_INPUT_LEN + 2 - 1)) := by
      have hend := longestLineEnd_of_chars hchars hrest
      rw [hcs] at hend
      obtain ⟨front, hfront, -, hvalidRest⟩ := hend.tail
      have hmarked : ∀ c ∈ [0x3C] :: rest, IsChar c := by
        refine List.forall_mem_cons.2 ⟨(isChar_single _).2 (by decide), fun c hc => ?_⟩
        exact hchars c (hrest.suffix.subset hc)
      have hcolumns : utf8StringWidth (lit "<" ++ rest.flatten) = 1 + total columnsOf rest :=
        utf8StringWidth_chars hmarked
      have hpaid := hrest.paid
      have hlength := congrArg List.length hfront
      rw [List.length_append] at hlength
      rw [List.take_of_length_le (by rw [List.length_append, show (lit "<").length = 1 by decide]; omega)]
      refine ⟨by omega, fun h => absurd (htotal ▸ h) (Nat.not_le.2 hover), fun _ => ⟨_, rfl, hend⟩, ?_⟩
      rwa [valid_append hmark.1]
    dsimp only
    split
    · rename_i hnarrow
      have hnone : LongestEnd columnsOf (avail - 1) cs [] := by
        rcases List.eq_nil_or_concat cs with rfl | ⟨front, c, rfl⟩
        · exact longestEnd_self (Nat.zero_le _)
        · have hpos : 0 < columnsOf c := utf8CharWidth_pos _
          rw [List.concat_eq_append]
          exact longestEnd_of_stop (Nat.zero_le _) (by rw [total_nil]; omega) front
      exact hshown hnone
    · have hone : ∀ n ∈ cs.map List.length, 1 ≤ n := by
        intro n hn
        obtain ⟨c, hc, rfl⟩ := List.mem_map.1 hn
        exact (hchars c hc).length.1
      have hcount : cs.length ≤ commandInput.bytes.length := by
        have hle := List.length_le_sum_of_one_le _ hone
        rwa [List.length_map, ← List.length_flatten, hcs] at hle
      have hwalk := @commandTailLoop_spec cs [] (avail - 1) commandInput.bytes.length commandInput.bytes
        (by rw [hcs, List.flatten_nil, List.append_nil])
      rw [List.append_nil] at hwalk
      obtain ⟨rest, hrest, hdrop⟩ := hwalk hchars (Nat.zero_le _) (by omega) hcount
      rw [hcs, total_nil] at hdrop
      rw [hdrop]
      exact hshown hrest

theorem commandDisplay_shown_narrow :
    TailShown 5 (lit "msg 系统") (commandDisplay (CBuf.copy _ (lit "msg 系统")) 6) :=
  commandDisplay_shown (CBuf.copy _ (lit "msg 系统")) (by decide) 6

/-- The last column stays empty. -/
example : commandDisplay (CBuf.copy _ (lit "msg 系统")) 5 = lit "<统" := by decide

end Command

/-! ## INSERT mode -/

/-- The loop that leaves pieces out until `excess` columns are skipped. -/
def skipColumns (excess : Nat) : Nat → List Bytes → List Bytes
  | _, [] => []
  | skipWidth, c :: p =>
    if skipWidth < excess then skipColumns excess (skipWidth + utf8CharWidth (utf8Decode c).1) p else c :: p

section Insert
variable (renderWidth renderHeight : Nat) (input : CBuf MAX_MESSAGE_LEN)

/-- `remaining` -/
def inputRemaining : Nat :=
  if input.bytes.length < MAX_MESSAGE_LEN then MAX_MESSAGE_LEN - 1 - input.bytes.length else 0

/-- The line is past 80 % of the buffer. -/
def GaugeShown : Prop := input.bytes.length > MAX_MESSAGE_LEN * 8 / 10

instance : Decidable (GaugeShown input) := inferInstanceAs (Decidable (_ > _))

/-- `gauge_width` -/
def gaugeWidth : Nat := if GaugeShown input then 4 + (decimal (inputRemaining input)).length + 2 else 0

/-- The parameters of `color`. -/
def gaugeColor : Bytes := if input.bytes.length > MAX_MESSAGE_LEN * 95 / 100 then lit "1;33" else lit "2;37"

/-- `gauge` -/
def inputGauge : List Span :=
  if GaugeShown input then
    [.sgr (gaugeColor input), .text (lit "… " ++ decimal (inputRemaining input) ++ lit " B"), .reset]
  else []

/-- `avail` -/
def inputAvail : Nat := max 1 (renderWidth - 3 - if gaugeWidth input > 0 then gaugeWidth input + 1 else 0)

/-- `display` -/
def inputDisplay : Bytes :=
  let inputWidth := utf8StringWidth input.bytes
  let avail := inputAvail renderWidth input
  if inputWidth > avail then
    (CBuf.copy MAX_MESSAGE_LEN (skipColumns (inputWidth - avail) 0 (utf8Chars input.bytes)).flatten).bytes
  else input.bytes

/-- `padding` -/
def inputPadding : Nat :=
  max 1 (renderWidth - 2 - utf8StringWidth (inputDisplay renderWidth input) - gaugeWidth input)

/-- The cursor goes to the last row, and the prompt, what is shown and the gauge are drawn there. -/
def inputSpans : List Span :=
  [.control (decimal renderHeight ++ lit ";1") 0x48, .control [] 0x4B, .sgr (lit "2;37"), .text (lit "›"), .reset,
    .text (lit " "), .text (inputDisplay renderWidth input)] ++
  if gaugeWidth input > 0 then .text (List.replicate (inputPadding renderWidth input) 0x20) :: inputGauge input else []

/-- What `tui_render_input` sends, of `buffer[2048]`. -/
def tuiRenderInput (width height : Nat) : Bytes :=
  let renderWidth := if width < 10 then 10 else width
  let renderHeight := if height < 4 then 4 else height
  (lineBytes (inputSpans renderWidth renderHeight input)).take (2048 - 1)

/-- The line is sent as it is composed, is no wider than the terminal, and shows the longest end that `avail` has room
for. -/
structure InputLineFits (width height : Nat) : Prop where
  whole : tuiRenderInput input width height = lineBytes (inputSpans width (max 4 height) input)
  columns : utf8AnsiStringWidth (tuiRenderInput input width height) ≤ width
  shown : LongestLineEnd (inputAvail width input) input.bytes (inputDisplay width input)

/-- The last character takes one column. -/
def LastInOneColumn : Prop := utf8StringWidth (input.bytes.drop (utf8RemoveLastChar input.bytes).length) = 1

instance : Decidable (LastInOneColumn input) := inferInstanceAs (Decidable (_ = _))

end Insert

section Shown
variable {cs : List Bytes} {excess avail skipWidth : Nat}

/-- What is left has `avail` columns at most once the excess is skipped. -/
theorem skipColumns_longest (h : skipWidth + total columnsOf cs = excess + avail) :
    LongestEnd columnsOf avail cs (skipColumns excess skipWidth cs) := by
  induction cs generalizing skipWidth with
  | nil => exact longestEnd_self (Nat.zero_le _)
  | cons c cs ih =>
    rw [skipColumns]
    split
    · refine (ih ?_).cons (by omega)
      rw [← h, total_cons, Nat.add_assoc]
      rfl
    · exact longestEnd_self (by omega)

variable {input : CBuf MAX_MESSAGE_LEN} {renderWidth renderHeight : Nat}

theorem inputDisplay_longest (hchars : ∀ c ∈ cs, IsChar c) (hcs : cs.flatten = input.bytes) :
    ∃ rest, inputDisplay renderWidth input = rest.flatten ∧
      LongestEnd columnsOf (inputAvail renderWidth input) cs rest := by
  have hpieces : utf8Chars input.bytes = cs := by rw [← hcs, utf8Chars_flatten hchars]
  have hwidth : utf8StringWidth input.bytes = total columnsOf cs := by rw [← hcs, utf8StringWidth_chars hchars]
  unfold inputDisplay
  rw [hpieces, hwidth]
  generalize inputAvail renderWidth input = avail
  dsimp only
  split
  · rename_i hover
    have hend : LongestEnd columnsOf avail cs (skipColumns (total columnsOf cs - avail) 0 cs) :=
      skipColumns_longest (by omega)
    refine ⟨_, ?_, hend⟩
    obtain ⟨front, hsplit, -, hvalid⟩ := (longestLineEnd_of_chars hchars hend).tail
    refine CBuf.copy_bytes (valid_zero_notMem hvalid) ?_
    have hroom := input.fits
    rw [← hcs, hsplit, List.length_append] at hroom
    omega
  · rename_i hfits
    exact ⟨cs, hcs.symm, longestEnd_self (Nat.not_lt.1 hfits)⟩

/-- What is left of the line with room for one column. -/
theorem longestEnd_one {rest front : List Bytes} {c : Bytes} (h : LongestEnd columnsOf 1 (front ++ [c]) rest) :
    total columnsOf rest = 1 ↔ columnsOf c = 1 := by
  have hpos : 0 < columnsOf c := utf8CharWidth_pos _
  constructor
  · intro hone
    obtain ⟨start, hstart⟩ := h.suffix
    rcases List.eq_nil_or_concat rest with rfl | ⟨more, d, rfl⟩
    · rw [total_nil] at hone
      cases hone
    · -- The last character is one of those that are left.
      rw [List.concat_eq_append] at *
      rw [← List.append_assoc] at hstart
      obtain rfl : d = c := by simpa using (List.append_inj' hstart rfl).2
      rw [total_append, total_cons, total_nil] at hone
      omega
  · intro hone
    have hlast : total columnsOf [c] ≤ total columnsOf _ :=
      total_le_of_suffix (h.longest [c] (List.suffix_append front [c]) (by rw [total_cons, total_nil]; omega))
    have hpaid := h.paid
    rw [total_cons, total_nil] at hlast
    omega

theorem gaugeWidth_pos : gaugeWidth input > 0 ↔ GaugeShown input := by
  unfold gaugeWidth
  split
  · rename_i h
    exact iff_of_true (by omega) h
  · rename_i h
    exact iff_of_false (Nat.lt_irrefl 0) h

theorem lineWidth_inputSpans : lineWidth (inputSpans renderWidth renderHeight input) =
    2 + utf8StringWidth (inputDisplay renderWidth input) +
      if GaugeShown input then inputPadding renderWidth input + ((decimal (inputRemaining input)).length + 4)
      else 0 := by
  have hprompt : utf8StringWidth (lit "›") = 1 ∧ utf8StringWidth (lit " ") = 1 ∧ utf8StringWidth (lit "… ") = 2 := by
    decide
  have hgauge : utf8StringWidth (lit "… " ++ decimal (inputRemaining input) ++ lit " B") =
      (decimal (inputRemaining input)).length + 4 := by
    have hascii : ∀ b ∈ decimal (inputRemaining input) ++ lit " B", b ≠ 0 ∧ b.toNat < 0x80 :=
      List.forall_mem_append.2 ⟨ascii_decimal _,
        List.forall_mem_cons.2 ⟨by decide, List.forall_mem_singleton.2 (by decide)⟩⟩
    rw [List.append_assoc, utf8StringWidth_append (ascii_head hascii), utf8StringWidth_ascii hascii, hprompt.2.2,
      List.length_append, show (lit " B").length = 2 by decide]
    omega
  have hline : lineWidth (inputSpans renderWidth renderHeight input) =
      0 + (0 + (0 + (utf8StringWidth (lit "›") + (0 + (utf8StringWidth (lit " ") +
        (utf8StringWidth (inputDisplay renderWidth input) + 0)))))) +
      lineWidth (if gaugeWidth input > 0 then
        .text (List.replicate (inputPadding renderWidth input) 0x20) :: inputGauge input else []) := lineWidth_append
  rw [hline, hprompt.1, hprompt.2.1]
  simp only [gaugeWidth_pos]
  split
  · rename_i hshown
    rw [lineWidth_cons, Span.width, utf8StringWidth_spaces, inputGauge, if_pos hshown, lineWidth_cons, lineWidth_cons,
      Span.width, hgauge]
    show _ + (_ + (0 + (_ + 0))) = _
    omega
  · rw [lineWidth_nil]
    omega

theorem length_inputSpans : (lineBytes (inputSpans renderWidth renderHeight input)).length =
    (inputDisplay renderWidth input).length + (decimal renderHeight).length + 23 +
      if GaugeShown input then inputPadding renderWidth input + ((decimal (inputRemaining input)).length + 17)
      else 0 := by
  have hlits : (lit ";1").length = 2 ∧ (lit "2;37").length = 4 ∧ (lit "›").length = 3 ∧ (lit "0").length = 1 ∧
      (lit " ").length = 1 ∧ (lit "… ").length = 4 ∧ (lit " B").length = 2 := by decide
  have hcolor : (gaugeColor input).length = 4 := by
    unfold gaugeColor
    split <;> decide
  have hgauge (h : GaugeShown input) :
      (lineBytes (inputGauge input)).length = (decimal (inputRemaining input)).length + 17 := by
    rw [inputGauge, if_pos h]
    simp only [lineBytes_cons, lineBytes_nil, List.length_append, Span.bytes, Span.sgr, Span.reset, length_csi,
      List.length_nil]
    omega
  simp only [inputSpans, gaugeWidth_pos, lineBytes_append, lineBytes_cons, lineBytes_nil, List.length_append,
    Span.bytes, Span.sgr, Span.reset, length_csi, List.length_nil]
  split
  · rename_i hshown
    rw [lineBytes_cons, List.length_append, hgauge hshown, Span.bytes, List.length_replicate]
    omega
  · rw [lineBytes_nil, List.length_nil]
    omega

theorem tidy_inputSpans (hvalid : utf8IsValidString (inputDisplay renderWidth input) = true)
    (hesc : esc ∉ inputDisplay renderWidth input) : Tidy (inputSpans renderWidth renderHeight input) := by
  have hcursor : endsFirst (decimal renderHeight ++ lit ";1") 0x48 = true := by
    rw [endsFirst, List.all_append, Bool.and_eq_true, Bool.and_eq_true]
    refine ⟨⟨List.all_eq_true.2 fun b hb => ?_, by decide⟩, by decide⟩
    rw [(digit_text b (isDigit_of_mem_decimal hb)).2.2]
    rfl
  have hclear : endsFirst [] 0x4B = true ∧ endsFirst (lit "2;37") 0x6D = true := by decide
  have hcolor : endsFirst (gaugeColor input) 0x6D = true := by
    unfold gaugeColor
    split <;> decide
  have hgauge : Tidy (inputGauge input) := by
    refine (tidy_styled hcolor ?_).ite _
    simp only [List.mem_append, not_or]
    exact ⟨⟨by decide, esc_notMem_decimal _⟩, by decide⟩
  have hprompt := (tidy_control hcursor).append ((tidy_control hclear.1).append
    ((tidy_styled (t := lit "›") hclear.2 (by decide)).append ((tidy_spaces 1).append
      (tidy_text hesc (valid_head hvalid)))))
  exact hprompt.append (((tidy_spaces _).append hgauge).ite _)

theorem lastInOneColumn_iff {rest : List Bytes} (hchars : ∀ c ∈ cs, IsChar c) (hcs : cs.flatten = input.bytes)
    (hne : input.bytes.length ≠ 0) (hend : LongestEnd columnsOf 1 cs rest) :
    total columnsOf rest = 1 ↔ LastInOneColumn input := by
  rcases List.eq_nil_or_concat cs with rfl | ⟨front, c, rfl⟩
  · rw [← hcs] at hne
    exact absurd rfl hne
  · rw [List.concat_eq_append] at *
    have hc : IsChar c := hchars c (by simp)
    have hlast : utf8StringWidth c = columnsOf c := by
      have hone := @utf8StringWidth_chars [c] (by simpa using hc)
      rwa [List.flatten_singleton, total_cons, total_nil, Nat.add_zero] at hone
    rw [longestEnd_one hend, LastInOneColumn, ← hcs, List.flatten_append, List.flatten_singleton,
      removeLastChar_append hc, List.drop_left, hlast]

/-- The bytes and the columns decide. -/
theorem inputLineFits_iff_sizes (hwidth : 10 ≤ renderWidth) (hvalid : utf8IsValidString input.bytes = true)
    (hplain : Plain input.bytes) : InputLineFits input renderWidth renderHeight ↔
      (lineBytes (inputSpans renderWidth (max 4 renderHeight) input)).length ≤ 2048 - 1 ∧
        lineWidth (inputSpans renderWidth (max 4 renderHeight) input) ≤ renderWidth := by
  obtain ⟨cs, hcs, hchars⟩ := (valid_iff _).1 hvalid
  obtain ⟨rest, hdisplay, hend⟩ := @inputDisplay_longest _ input renderWidth hchars hcs
  have hshown := longestLineEnd_of_chars hchars hend
  rw [hcs, ← hdisplay] at hshown
  have hesc : esc ∉ inputDisplay renderWidth input := by
    obtain ⟨front, hfront, -⟩ := hshown.tail
    intro h
    exact absurd (hplain esc (hfront ▸ List.mem_append_right front h)).1 (by decide)
  have hsent : tuiRenderInput input renderWidth renderHeight =
      (lineBytes (inputSpans renderWidth (max 4 renderHeight) input)).take (2048 - 1) := by
    have hheight : (if renderHeight < 4 then 4 else renderHeight) = max 4 renderHeight := by
      split <;> omega
    rw [tuiRenderInput, if_neg (Nat.not_lt.2 hwidth), hheight]
  have hcolumns := ansiWidth_spans (@tidy_inputSpans input renderWidth (max 4 renderHeight)
    (by obtain ⟨front, -, -, h⟩ := hshown.tail; exact h) hesc).legible
  constructor
  · rintro ⟨hwhole, hfits, -⟩
    rw [hwhole, hcolumns] at hfits
    rw [hsent, List.take_eq_self_iff] at hwhole
    exact ⟨hwhole, hfits⟩
  · rintro ⟨hlength, hfits⟩
    have hwhole : tuiRenderInput input renderWidth renderHeight =
        lineBytes (inputSpans renderWidth (max 4 renderHeight) input) := by
      rw [hsent, List.take_eq_self_iff]
      exact hlength
    exact ⟨hwhole, by rwa [hwhole, hcolumns], hshown⟩

/-- The digits of the bytes that are left. -/
theorem length_inputRemaining (h : GaugeShown input) :
    1 ≤ (decimal (inputRemaining input)).length ∧ (decimal (inputRemaining input)).length ≤ 3 ∧
      ((decimal (inputRemaining input)).length = 3 ↔ input.bytes.length ≤ 923) := by
  have hfull := input.fits
  have hremaining : inputRemaining input = 1023 - input.bytes.length := if_pos hfull
  unfold GaugeShown at h
  simp only [MAX_MESSAGE_LEN] at hfull h
  have hle : (decimal (inputRemaining input)).length ≤ 3 := length_decimal_le (by omega)
  refine ⟨List.length_pos_iff.2 (decimal_ne_nil _), hle, ?_⟩
  rcases Nat.lt_or_ge (inputRemaining input) (10 ^ 2) with hlt | hge
  · have hshort : (decimal (inputRemaining input)).length ≤ 1 + 1 := length_decimal_le hlt
    omega
  · have hlong := lt_length_decimal hge
    omega

end Shown

/-- The line of INSERT mode fits, but for a terminal of ten columns with a number of three digits on the gauge and a
last character of one column, and for terminals so wide that the padding does not fit the buffer. -/
theorem inputLine_fits_iff (width : Nat) (hwidth : 10 ≤ width) (height : IntCount) (input : CBuf MAX_MESSAGE_LEN)
    (hvalid : utf8IsValidString input.bytes = true) (hplain : Plain input.bytes) :
    InputLineFits input width height ↔
      ¬ (width = 10 ∧ 820 ≤ input.bytes.length ∧ input.bytes.length ≤ 923 ∧ LastInOneColumn input) ∧
        (820 ≤ input.bytes.length →
          width + input.bytes.length + (decimal (max 4 height)).length ≤ 2015 + utf8StringWidth input.bytes) := by
  obtain ⟨cs, hcs, hchars⟩ := (valid_iff _).1 hvalid
  obtain ⟨rest, hdisplay, hend⟩ := @inputDisplay_longest _ input width hchars hcs
  have hrest : ∀ c ∈ rest, IsChar c := fun c hc => hchars c (hend.suffix.subset hc)
  have hcolumns : utf8StringWidth (inputDisplay width input) = total columnsOf rest := by
    rw [hdisplay, utf8StringWidth_chars hrest]
  have hwhole : utf8StringWidth input.bytes = total columnsOf cs := by rw [← hcs, utf8StringWidth_chars hchars]
  have hlength : (inputDisplay width input).length ≤ input.bytes.length := by
    obtain ⟨front, hsplit, -⟩ := (longestLineEnd_of_chars hchars hend).tail
    rw [hdisplay, ← hcs, hsplit, List.length_append]
    exact Nat.le_add_left _ _
  have hfull := input.fits
  have hheight : (decimal (max 4 height.val)).length ≤ 10 := length_decimal_le (by omega)
  have hpaid := hend.paid
  -- Either all of the line is shown, or one column of what there is room for is left at most.
  have hnext : inputDisplay width input = input.bytes ∧ total columnsOf rest = total columnsOf cs ∨
      inputAvail width input < total columnsOf cs ∧ inputAvail width input ≤ total columnsOf rest + 1 := by
    rcases Nat.lt_or_ge (inputAvail width input) (total columnsOf cs) with hover | hfits
    · rcases hend.next with rfl | ⟨c, -, hstop⟩
      · exact absurd hpaid (Nat.not_le.2 hover)
      · have hle : columnsOf c ≤ 2 := utf8CharWidth_le _
        exact .inr ⟨hover, by omega⟩
    · obtain rfl := hend.unique (longestEnd_self hfits)
      exact .inl ⟨hdisplay.trans hcs, rfl⟩
  rw [inputLineFits_iff_sizes hwidth hvalid hplain, lineWidth_inputSpans, length_inputSpans]
  by_cases hshown : GaugeShown input
  · obtain ⟨hpos, hthree, hdigits⟩ := length_inputRemaining hshown
    have hgauge : gaugeWidth input = 4 + (decimal (inputRemaining input)).length + 2 := if_pos hshown
    have havail : inputAvail width input = max 1 (width - 3 - (gaugeWidth input + 1)) := by
      rw [inputAvail, if_pos (by omega)]
    have hlast : width = 10 → (total columnsOf rest = 1 ↔ LastInOneColumn input) := by
      intro hten
      rw [show inputAvail width input = 1 by omega] at hend
      exact lastInOneColumn_iff hchars hcs (by unfold GaugeShown at hshown; omega) hend
    rw [if_pos hshown, if_pos hshown, inputPadding, hcolumns]
    unfold GaugeShown at hshown
    simp only [MAX_MESSAGE_LEN] at hshown hfull ⊢
    constructor
    · rintro ⟨hfits, hnarrow⟩
      refine ⟨?_, fun _ => ?_⟩
      · rintro ⟨hten, -, hlong, hone⟩
        have hend := (hlast hten).2 hone
        omega
      · rcases hnext with ⟨hall, hsame⟩ | hnext
        · rw [hall] at hfits
          omega
        · omega
    · rintro ⟨hnarrow, hwide⟩
      have hwide := hwide hshown
      refine ⟨?_, ?_⟩
      · rcases hnext with ⟨hall, hsame⟩ | hnext
        · omega
        · omega
      · by_contra hover
        have hten : width = 10 := by omega
        exact hnarrow ⟨hten, by omega, by omega, (hlast hten).1 (by omega)⟩
  · rw [if_neg hshown, if_neg hshown, hcolumns]
    have havail : inputAvail width input = max 1 (width - 3) := by
      rw [inputAvail, if_neg (by rw [gaugeWidth_pos]; exact hshown)]
      rfl
    unfold GaugeShown at hshown
    simp only [MAX_MESSAGE_LEN] at hshown hfull ⊢
    exact iff_of_true ⟨by omega, by omega⟩ ⟨by omega, by omega⟩

theorem inputLine_fits_iff_greeting : InputLineFits (CBuf.copy _ (lit "你好")) 80 24 :=
  (inputLine_fits_iff 80 (by decide) 24 (CBuf.copy _ (lit "你好")) (by decide) (by decide)).2 (by decide)

/-- One column too many, with ` … 203 B` behind one letter. -/
theorem inputLine_overflows : ¬ ∀ width, 10 ≤ width → ∀ (height : IntCount) (input : CBuf MAX_MESSAGE_LEN),
    utf8IsValidString input.bytes = true → Plain input.bytes → InputLineFits input width height := by
  intro h
  have hfits := h 10 (by decide) 24 (CBuf.copy _ (List.replicate 820 0x61)) (by decide +kernel) (by decide +kernel)
  exact absurd hfits.columns (by decide +kernel)

end Tnt
