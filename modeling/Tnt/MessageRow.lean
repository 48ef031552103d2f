import Tnt.ScreenLine
import Tnt.Terminal
/-!
# The row of a message (`tui.c`)

`format_message_colored` draws a message on a row of the terminal and cuts its content where the row is too long. It
cuts the star of an action with the content, and takes the columns of the star off the room for both:
`messageRow_fits_iff`.
-/
open BaseLib

namespace Tnt

/-! ## The parts of a row -/

/-- The parameters of a style. -/
def Style.params (code : Bytes) : Style → Bytes
  | accent => code
  | accentItalic => lit "3;" ++ code
  | dim => lit "90"
  | reset => lit "0"
  | highlight => lit "1;33"
  | color i => lit "3" ++ decimal (i + 1)

def Piece.span (code : Bytes) : Piece → Span
  | style s => .sgr (s.params code)
  | text t => .text t

section Row
variable (msg : Message) (hour : Fin 24) (minute : Fin 60) (width : Nat) (myUsername code : Bytes)

/-- The row as a line of the screen. -/
def rowSpans : List Span := (formatMessageColored msg hour minute width myUsername).map (Piece.span code)

/-- What `format_message_colored` writes to `msg_line[2048]`. -/
def messageRow : Bytes :=
  ((formatMessageColored msg hour minute width myUsername).flatMap (Piece.bytes code)).take (2048 - 1)

/-- `time_str` -/
def rowTime : Bytes := twoDigits hour ++ 0x3A :: twoDigits minute

/-- An action: what `/me` says. -/
def isAction : Bool := !systemMessageIsSystem msg && msg.username.bytes == lit "*"

/-- The mark of the viewer's own messages, or a space. -/
def rowGutter : Bytes := if isSelf msg myUsername then lit "▎" else lit " "

/-- What stands between the gutter and the content. -/
def rowLead : Bytes :=
  if systemMessageIsSystem msg then lit "--> "
  else if isAction msg then rowTime hour minute ++ lit " * "
  else rowTime hour minute ++ lit " " ++ msg.username.bytes ++ lit ": "

/-- What stands in front of the content. -/
def rowStart : Bytes := rowGutter msg myUsername ++ rowLead msg hour minute

/-- The row fits, or no more of its content could be shown. -/
structure RowFits : Prop where
  whole : messageRow msg hour minute width myUsername code = lineBytes (rowSpans msg hour minute width myUsername code)
  valid : utf8IsValidString (messageRow msg hour minute width myUsername code) = true
  columns : utf8AnsiStringWidth (messageRow msg hour minute width myUsername code) ≤ width
  full : utf8StringWidth (rowStart msg hour minute myUsername ++ msg.content.bytes) ≤ width →
    withoutEscapes (messageRow msg hour minute width myUsername code) =
      rowStart msg hour minute myUsername ++ msg.content.bytes
  cut : width < utf8StringWidth (rowStart msg hour minute myUsername ++ msg.content.bytes) →
    ∃ t, withoutEscapes (messageRow msg hour minute width myUsername code) = rowStart msg hour minute myUsername ++ t ∧
      IsCut msg.content.bytes t ∧
      ∀ u, IsCut msg.content.bytes u → utf8StringWidth (rowStart msg hour minute myUsername ++ u) ≤ width → u <+: t

end Row

section Text
variable {msg : Message} {hour : Fin 24} {minute : Fin 60} {width : Nat} {myUsername code : Bytes}

/-- The bytes of the parts are those of the line. -/
theorem flatMap_bytes (pieces : List Piece) :
    pieces.flatMap (Piece.bytes code) = lineBytes (pieces.map (Piece.span code)) := by
  have hpiece (p : Piece) : p.bytes code = (p.span code).bytes := by
    cases p with
    | text t => rfl
    | style s => cases s <;> rfl
  induction pieces with
  | nil => rfl
  | cons p pieces ih => rw [List.flatMap_cons, hpiece, ih, List.map_cons, lineBytes_cons]

theorem Style.params_text (hcode : code ∈ themeCodes) (s : Style) :
    endsFirst (s.params code) 0x6D = true ∧ (s.params code).length ≤ 4 ∧
      ∀ b ∈ s.params code, b ≠ 0 ∧ b.toNat < 0x80 := by
  revert code
  cases s with
  | color i => revert i; decide +kernel
  | _ => decide +kernel

/-- The styles are clean, so a line is where its texts are. -/
theorem clean_span {pieces : List Piece} (hcode : code ∈ themeCodes)
    (h : ∀ t, .text t ∈ pieces → esc ∉ t ∧ isContinuation (byteAt t 0) = false) :
    ∀ span ∈ pieces.map (Piece.span code), span.Clean := by
  intro span hspan
  obtain ⟨p, hp, rfl⟩ := List.mem_map.1 hspan
  cases p with
  | style s => exact ⟨(s.params_text hcode).1, (s.params_text hcode).2.2⟩
  | text t => exact h t hp

/-- The content of a row, with the star of an action, as `format_message_colored` draws it. -/
def rowContent (msg : Message) (hour : Fin 24) (minute : Fin 60) (width : Nat) : Bytes :=
  let starred := if isAction msg then lit "* " ++ msg.content.bytes else msg.content.bytes
  if utf8StringWidth (0x20 :: rowLead msg hour minute ++ msg.content.bytes) > width then
    utf8Truncate (CBuf.copy MAX_MESSAGE_LEN starred).bytes
      (max 4 (width - utf8StringWidth (0x20 :: rowLead msg hour minute)))
  else starred

/-- The content of a row takes four bytes for each column of the terminal at most, and two for the star of an action. -/
theorem length_rowContent_le (hwidth : 4 ≤ width) : (rowContent msg hour minute width).length ≤ 4 * width + 2 := by
  unfold rowContent
  dsimp only
  split
  · have hcolumns := utf8StringWidth_utf8Truncate_le (CBuf.copy MAX_MESSAGE_LEN
      (if isAction msg then lit "* " ++ msg.content.bytes else msg.content.bytes)).bytes
      (max 4 (width - utf8StringWidth (0x20 :: rowLead msg hour minute)))
    refine (length_le_columns _).trans ?_
    omega
  · rename_i hfits
    have hbytes := length_le_columns (0x20 :: rowLead msg hour minute ++ msg.content.bytes)
    rw [List.length_append] at hbytes
    split
    · rw [List.length_append, show (lit "* ").length = 2 by decide]
      omega
    · omega

/-- The time and the name, in front of the content. -/
def rowName (msg : Message) (hour : Fin 24) (minute : Fin 60) : List Piece :=
  [.style .dim, .text (rowTime hour minute), .style .reset, .text (lit " "),
    .style (usernameColor msg.username.bytes), .text msg.username.bytes, .style .reset, .text (lit ": ")]

/-- The parts of a row. -/
theorem formatMessageColored_eq : formatMessageColored msg hour minute width myUsername =
    (if isSelf msg myUsername then [.style .accent, .text (lit "▎"), .style .reset] else [.text (lit " ")]) ++
      if systemMessageIsSystem msg then
        [.style .dim, .text (lit "--> "), .text (rowContent msg hour minute width), .style .reset]
      else if isAction msg then
        [.style .dim, .text (rowTime hour minute), .style .reset, .text (lit " "), .style .accentItalic,
          .text (rowContent msg hour minute width), .style .reset]
      else if myUsername ≠ [] ∧ systemMessageIsSystem msg = false ∧
          strstr msg.content.bytes (0x40 :: myUsername) = true then
        rowName msg hour minute ++ [.style .highlight, .text (rowContent msg hour minute width), .style .reset]
      else rowName msg hour minute ++ [.text (rowContent msg hour minute width)] := by
  have hstart : (if systemMessageIsSystem msg then lit " --> "
      else if isAction msg then 0x20 :: rowTime hour minute ++ lit " * "
      else 0x20 :: rowTime hour minute ++ 0x20 :: msg.username.bytes ++ lit ": ") =
        0x20 :: rowLead msg hour minute := by
    unfold rowLead
    split
    · rfl
    · split
      · rfl
      · rw [List.append_assoc (rowTime hour minute)]
        rfl
  unfold rowContent
  rw [← hstart]
  rfl

/-- The text of a row. -/
theorem lineText_rowSpans : lineText (rowSpans msg hour minute width myUsername code) =
    rowGutter msg myUsername ++
      ((if isAction msg then rowTime hour minute ++ lit " " else rowLead msg hour minute) ++
        rowContent msg hour minute width) := by
  have hgutter : lineText ((if isSelf msg myUsername then [.style .accent, .text (lit "▎"), .style .reset]
      else [.text (lit " ")] : List Piece).map (Piece.span code)) = rowGutter msg myUsername := by
    unfold rowGutter
    split <;> rfl
  rw [rowSpans, formatMessageColored_eq, List.map_append, lineText_append, hgutter]
  congr 1
  generalize rowContent msg hour minute width = content
  have haction : systemMessageIsSystem msg = true → isAction msg = false := fun h => by rw [isAction, h]; rfl
  unfold rowLead
  split
  · rename_i hsystem
    rw [if_neg (Bool.eq_false_iff.1 (haction hsystem))]
    simp [Piece.span, Span.sgr, Span.plain]
  · split
    · simp [Piece.span, Span.sgr, Span.plain]
    · split <;> simp [rowName, Piece.span, Span.sgr, Span.plain]

/-- Every text of a row but the content is one of these. -/
theorem text_mem_row {t : Bytes} (h : .text t ∈ formatMessageColored msg hour minute width myUsername) :
    t = rowContent msg hour minute width ∨
      t ∈ [lit "▎", lit " ", lit "--> ", lit ": ", rowTime hour minute, msg.username.bytes] := by
  rw [formatMessageColored_eq] at h
  generalize rowContent msg hour minute width = content at h ⊢
  have hname : .text t ∈ rowName msg hour minute →
      t = rowTime hour minute ∨ t = lit " " ∨ t = msg.username.bytes ∨ t = lit ": " := by
    intro h
    simpa only [rowName, List.mem_cons, reduceCtorEq, Piece.text.injEq, List.not_mem_nil, false_or, or_false] using h
  rcases List.mem_append.1 h with h | h
  · split at h <;>
      simp only [List.mem_cons, reduceCtorEq, Piece.text.injEq, List.not_mem_nil, false_or, or_false] at h <;>
      simp [h]
  · split_ifs at h
    all_goals
      simp only [List.mem_append, List.mem_cons, reduceCtorEq, Piece.text.injEq, List.not_mem_nil, false_or,
        or_false] at h
    · rcases h with h | h <;> simp [h]
    · rcases h with h | h | h <;> simp [h]
    · rcases h with h | h
      · rcases hname h with h | h | h | h <;> simp [h]
      · simp [h]
    · rcases h with h | h
      · rcases hname h with h | h | h | h <;> simp [h]
      · simp [h]

theorem rowTime_text (hour : Fin 24) (minute : Fin 60) :
    (∀ b ∈ rowTime hour minute, (b ≠ 0 ∧ b.toNat < 0x80) ∧ b ≠ esc) ∧ (rowTime hour minute).length = 5 := by
  have hdigit (n : Nat) : (digit n ≠ 0 ∧ (digit n).toNat < 0x80) ∧ digit n ≠ esc :=
    ⟨(digit_text _ (isDigit_digit n)).1, (digit_text _ (isDigit_digit n)).2.1⟩
  have htwo {n : Nat} (h : n < 60) :
      (∀ b ∈ twoDigits n, (b ≠ 0 ∧ b.toNat < 0x80) ∧ b ≠ esc) ∧ (twoDigits n).length = 2 := by
    rw [twoDigits_lt (by omega)]
    refine ⟨fun b hb => ?_, rfl⟩
    simp only [List.mem_cons, List.not_mem_nil, or_false] at hb
    rcases hb with rfl | rfl
    · exact hdigit _
    · exact hdigit _
  obtain ⟨hhour, hhourLength⟩ := htwo (show hour.val < 60 by omega)
  obtain ⟨hminute, hminuteLength⟩ := htwo minute.isLt
  refine ⟨fun b hb => ?_, ?_⟩
  · rcases List.mem_append.1 hb with hb | hb
    · exact hhour b hb
    · rcases List.mem_cons.1 hb with rfl | hb
      · decide
      · exact hminute b hb
  · rw [rowTime, List.length_append, List.length_cons, hhourLength, hminuteLength]

theorem valid_rowLead (hname : utf8IsValidString msg.username.bytes = true) :
    utf8IsValidString (rowLead msg hour minute) = true ∧ rowLead msg hour minute ≠ [] := by
  have htime : utf8IsValidString (rowTime hour minute) = true :=
    valid_of_ascii fun b hb => ((rowTime_text hour minute).1 b hb).1
  have hlits : utf8IsValidString (lit "--> ") = true ∧ utf8IsValidString (lit " * ") = true ∧
      utf8IsValidString (lit " ") = true ∧ utf8IsValidString (lit ": ") = true := by decide
  unfold rowLead
  split
  · exact ⟨hlits.1, by decide⟩
  · split
    · refine ⟨?_, List.append_ne_nil_of_right_ne_nil _ (by decide)⟩
      rw [valid_append htime]
      exact hlits.2.1
    · refine ⟨?_, List.append_ne_nil_of_right_ne_nil _ (by decide)⟩
      rw [List.append_assoc, List.append_assoc, valid_append htime, valid_append hlits.2.2.1, valid_append hname]
      exact hlits.2.2.2

/-- A gutter takes one column. -/
theorem utf8StringWidth_gutter (hname : utf8IsValidString msg.username.bytes = true) {t : Bytes}
    (ht : utf8IsValidString t = true) (gutter : Bytes) (hgutter : utf8StringWidth gutter = 1) :
    utf8StringWidth (gutter ++ (rowLead msg hour minute ++ t)) =
      1 + utf8StringWidth (rowLead msg hour minute) + utf8StringWidth t := by
  have hlead := (@valid_rowLead msg hour minute hname).1
  have hboth : utf8IsValidString (rowLead msg hour minute ++ t) = true := by rwa [valid_append hlead]
  rw [utf8StringWidth_append (valid_head hboth), utf8StringWidth_append (valid_head ht), hgutter, Nat.add_assoc]

theorem utf8StringWidth_rowStart (hname : utf8IsValidString msg.username.bytes = true) {t : Bytes}
    (ht : utf8IsValidString t = true) : utf8StringWidth (rowStart msg hour minute myUsername ++ t) =
      1 + utf8StringWidth (rowLead msg hour minute) + utf8StringWidth t := by
  rw [rowStart, List.append_assoc]
  refine utf8StringWidth_gutter hname ht _ ?_
  unfold rowGutter
  split <;> decide

/-- A row has room in its buffer. -/
theorem messageRow_eq (hcode : code ∈ themeCodes) :
    messageRow msg hour minute width myUsername code = lineBytes (rowSpans msg hour minute width myUsername code) := by
  have hcontent : (rowContent msg hour minute width).length ≤ 1025 := by
    have hfits : msg.content.bytes.length < 1024 := msg.content.fits
    unfold rowContent
    dsimp only
    split
    · have hcut := (isPrefix_utf8Truncate (CBuf.copy MAX_MESSAGE_LEN
        (if isAction msg = true then lit "* " ++ msg.content.bytes else msg.content.bytes)).bytes
        (max 4 (width - utf8StringWidth (0x20 :: rowLead msg hour minute)))).length_le
      have hcopy : (CBuf.copy MAX_MESSAGE_LEN
        (if isAction msg = true then lit "* " ++ msg.content.bytes else msg.content.bytes)).bytes.length < 1024 :=
        CBuf.fits _
      omega
    · split
      · rw [List.length_append, show (lit "* ").length = 2 by decide]
        omega
      · omega
  have hlead : (if isAction msg then rowTime hour minute ++ lit " " else rowLead msg hour minute).length ≤ 71 := by
    have hname : msg.username.bytes.length < 64 := msg.username.fits
    have htime := (rowTime_text hour minute).2
    have hlits : (lit "--> ").length = 4 ∧ (lit " * ").length = 3 ∧ (lit " ").length = 1 ∧ (lit ": ").length = 2 := by
      decide
    unfold rowLead
    split
    · rw [List.length_append]
      omega
    · split
      · omega
      · simp only [List.length_append]
        omega
  have hgutter : (rowGutter msg myUsername).length ≤ 3 := by
    unfold rowGutter
    split <;> decide
  have hpieces : (rowSpans msg hour minute width myUsername code).length ≤ 14 := by
    rw [rowSpans, List.length_map, formatMessageColored_eq]
    split_ifs <;> simp [rowName]
  have hparams : ∀ params final, .control params final ∈ rowSpans msg hour minute width myUsername code →
      params.length ≤ 4 := by
    intro params final h
    obtain ⟨p, -, hp⟩ := List.mem_map.1 h
    cases p with
    | text t => cases hp
    | style s =>
      obtain ⟨rfl, -⟩ := Span.control.inj hp
      exact (s.params_text hcode).2.1
  have hlength := length_lineBytes_le hparams
  rw [lineText_rowSpans, List.length_append, List.length_append] at hlength
  have hroom : (lineBytes (rowSpans msg hour minute width myUsername code)).length ≤ 2048 - 1 := by omega
  rw [messageRow, flatMap_bytes]
  exact List.take_of_length_le hroom

/-- What a terminal makes of the row, if its content has no escapes and begins with a character. -/
theorem messageRow_text (hcode : code ∈ themeCodes) (hplain : Plain msg.username.bytes)
    (hname : utf8IsValidString msg.username.bytes = true) (hesc : esc ∉ rowContent msg hour minute width)
    (hhead : isContinuation (byteAt (rowContent msg hour minute width) 0) = false) :
    withoutEscapes (messageRow msg hour minute width myUsername code) =
        lineText (rowSpans msg hour minute width myUsername code) ∧
      utf8AnsiStringWidth (messageRow msg hour minute width myUsername code) =
        utf8StringWidth (lineText (rowSpans msg hour minute width myUsername code)) ∧
      (utf8IsValidString (rowContent msg hour minute width) = true →
        utf8IsValidString (messageRow msg hour minute width myUsername code) = true) := by
  have hlits : ∀ t ∈ [lit "▎", lit " ", lit "--> ", lit ": "], esc ∉ t ∧ utf8IsValidString t = true := by decide
  have hother : ∀ t ∈ [lit "▎", lit " ", lit "--> ", lit ": ", rowTime hour minute, msg.username.bytes],
      esc ∉ t ∧ utf8IsValidString t = true := by
    intro t ht
    rcases List.mem_append.1 (show t ∈ [lit "▎", lit " ", lit "--> ", lit ": "] ++
      [rowTime hour minute, msg.username.bytes] from ht) with ht | ht
    · exact hlits t ht
    · simp only [List.mem_cons, List.not_mem_nil, or_false] at ht
      rcases ht with rfl | rfl
      · exact ⟨fun h => ((rowTime_text hour minute).1 _ h).2 rfl,
          valid_of_ascii fun b hb => ((rowTime_text hour minute).1 b hb).1⟩
      · exact ⟨fun h => absurd (hplain _ h).1 (by decide), hname⟩
  have hclean : ∀ span ∈ rowSpans msg hour minute width myUsername code, span.Clean := by
    refine clean_span hcode fun t ht => ?_
    rcases text_mem_row ht with rfl | ht
    · exact ⟨hesc, hhead⟩
    · exact ⟨(hother t ht).1, valid_head (hother t ht).2⟩
  rw [messageRow_eq hcode, withoutEscapes_spans (tidy_of_clean hclean).legible,
    ansiWidth_spans (tidy_of_clean hclean).legible, (lineWidth_of_clean hclean).1]
  refine ⟨rfl, rfl, fun hvalid => valid_of_clean hclean fun t ht => ?_⟩
  obtain ⟨p, hp, hspan⟩ := List.mem_map.1 ht
  cases p with
  | style s => cases hspan
  | text u =>
    obtain rfl := Span.text.inj hspan
    rcases text_mem_row hp with rfl | hu
    · exact hvalid
    · exact (hother u hu).2

theorem rowLead_action (h : isAction msg = true) :
    rowLead msg hour minute = rowTime hour minute ++ lit " " ++ lit "* " := by
  have hsystem : ¬ systemMessageIsSystem msg = true := by
    intro hsystem
    rw [isAction, hsystem] at h
    cases h
  rw [rowLead, if_neg hsystem, if_pos h, List.append_assoc]
  rfl

/-- A row of which the content is valid is no wider than its text, and shows it. -/
theorem rowFits_of_text (hcode : code ∈ themeCodes) (hplain : msg.Plain)
    (hname : utf8IsValidString msg.username.bytes = true) (hesc : esc ∉ rowContent msg hour minute width)
    (hvalid : utf8IsValidString (rowContent msg hour minute width) = true) {t : Bytes}
    (htext : lineText (rowSpans msg hour minute width myUsername code) = rowStart msg hour minute myUsername ++ t)
    (hcolumns : utf8StringWidth (rowStart msg hour minute myUsername ++ t) ≤ width)
    (hfull : utf8StringWidth (rowStart msg hour minute myUsername ++ msg.content.bytes) ≤ width → t = msg.content.bytes)
    (hcut : IsCut msg.content.bytes t ∧
      ∀ u, IsCut msg.content.bytes u → utf8StringWidth (rowStart msg hour minute myUsername ++ u) ≤ width → u <+: t) :
    RowFits msg hour minute width myUsername code := by
  obtain ⟨hshown, hwidth, hbytes⟩ :=
    @messageRow_text msg hour minute width myUsername code hcode hplain.username hname hesc (valid_head hvalid)
  rw [htext] at hshown hwidth
  exact ⟨messageRow_eq hcode, hbytes hvalid, hwidth ▸ hcolumns, fun h => by rw [hshown, hfull h],
    fun _ => ⟨t, hshown, hcut⟩⟩

/-- The columns of the row without colours, as `format_message_colored` measures it. -/
theorem utf8StringWidth_plain (hname : utf8IsValidString msg.username.bytes = true) {t : Bytes}
    (ht : utf8IsValidString t = true) : utf8StringWidth (0x20 :: rowLead msg hour minute ++ t) =
      1 + utf8StringWidth (rowLead msg hour minute) + utf8StringWidth t :=
  utf8StringWidth_gutter hname ht [0x20] (by decide)

/-- The room for the content, where the row is too long. -/
theorem rowContent_of_over (hname : utf8IsValidString msg.username.bytes = true)
    (hcontent : utf8IsValidString msg.content.bytes = true)
    (hwidth : 1 + utf8StringWidth (rowLead msg hour minute) + 4 ≤ width)
    (hover : width < 1 + utf8StringWidth (rowLead msg hour minute) + utf8StringWidth msg.content.bytes) :
    rowContent msg hour minute width =
      utf8Truncate (CBuf.copy MAX_MESSAGE_LEN
        (if isAction msg = true then lit "* " ++ msg.content.bytes else msg.content.bytes)).bytes
        (width - (1 + utf8StringWidth (rowLead msg hour minute))) := by
  have hlead := @utf8StringWidth_plain msg hour minute hname [] valid_nil
  rw [List.append_nil, show utf8StringWidth [] = 0 from rfl, Nat.add_zero] at hlead
  unfold rowContent
  dsimp only
  rw [if_pos (utf8StringWidth_plain hname hcontent ▸ hover), hlead]
  congr 1
  omega

/-- A row that is not too long is drawn as it is. -/
theorem rowFits_of_le (hcode : code ∈ themeCodes) (hplain : msg.Plain)
    (hname : utf8IsValidString msg.username.bytes = true) (hcontent : utf8IsValidString msg.content.bytes = true)
    (hfits : 1 + utf8StringWidth (rowLead msg hour minute) + utf8StringWidth msg.content.bytes ≤ width) :
    RowFits msg hour minute width myUsername code := by
  have hdrawn : rowContent msg hour minute width =
      if isAction msg then lit "* " ++ msg.content.bytes else msg.content.bytes := by
    unfold rowContent
    dsimp only
    rw [if_neg (utf8StringWidth_plain hname hcontent ▸ Nat.not_lt.2 hfits)]
  have hescContent : esc ∉ msg.content.bytes := fun h => absurd (hplain.content _ h).1 (by decide)
  have hstar : esc ∉ lit "* " ∧ utf8IsValidString (lit "* ") = true := by decide
  refine @rowFits_of_text msg hour minute width myUsername code hcode hplain hname ?_ ?_ msg.content.bytes ?_ ?_
    (fun _ => rfl) ⟨front_self _, fun u hu _ => Front.isPrefix hu⟩
  · rw [hdrawn]
    split
    · exact List.mem_append.not.2 (not_or.2 ⟨hstar.1, hescContent⟩)
    · exact hescContent
  · rw [hdrawn]
    split
    · rwa [valid_append hstar.2]
    · exact hcontent
  · rw [lineText_rowSpans, hdrawn, rowStart]
    split
    · rename_i haction
      rw [rowLead_action haction]
      simp only [List.append_assoc]
    · rw [List.append_assoc]
  · rwa [utf8StringWidth_rowStart hname hcontent]

/-- Of a row that is too long, as much is drawn as fits. -/
theorem rowFits_of_cut (hcode : code ∈ themeCodes) (hplain : msg.Plain)
    (hname : utf8IsValidString msg.username.bytes = true) (hcontent : utf8IsValidString msg.content.bytes = true)
    (haction : isAction msg = false) (hwidth : 1 + utf8StringWidth (rowLead msg hour minute) + 4 ≤ width)
    (hover : width < 1 + utf8StringWidth (rowLead msg hour minute) + utf8StringWidth msg.content.bytes) :
    RowFits msg hour minute width myUsername code := by
  have hdrawn := rowContent_of_over hname hcontent hwidth hover
  rw [haction, if_neg Bool.false_ne_true, CBuf.copy_self] at hdrawn
  generalize hroom : width - (1 + utf8StringWidth (rowLead msg hour minute)) = room at hdrawn
  obtain ⟨⟨hcut, hle, hlongest⟩, -, hvalid, -⟩ := utf8Truncate_longest msg.content.bytes room
  rw [← hdrawn] at hcut hle hlongest hvalid
  refine @rowFits_of_text msg hour minute width myUsername code hcode hplain hname ?_ (hvalid hcontent) _ ?_ ?_ ?_
    ⟨hcut, fun u hu hcolumns => hlongest u hu ?_⟩
  · exact fun h => absurd (hplain.content _ (hcut.isPrefix.subset h)).1 (by decide)
  · rw [lineText_rowSpans, haction, if_neg Bool.false_ne_true, rowStart, List.append_assoc]
  · rw [utf8StringWidth_rowStart hname (hvalid hcontent)]
    omega
  · intro hfits
    rw [utf8StringWidth_rowStart hname hcontent] at hfits
    omega
  · rw [utf8StringWidth_rowStart hname (hu.valid hcontent)] at hcolumns
    omega

/-- The star of an action that is too long takes two columns that are its content's. -/
theorem not_rowFits_of_action (hcode : code ∈ themeCodes) (hplain : msg.Plain)
    (hname : utf8IsValidString msg.username.bytes = true) (hcontent : utf8IsValidString msg.content.bytes = true)
    (haction : isAction msg = true) (hwidth : 1 + utf8StringWidth (rowLead msg hour minute) + 4 ≤ width)
    (hover : width < 1 + utf8StringWidth (rowLead msg hour minute) + utf8StringWidth msg.content.bytes) :
    ¬ RowFits msg hour minute width myUsername code := by
  have hdrawn := rowContent_of_over hname hcontent hwidth hover
  rw [if_pos haction] at hdrawn
  generalize hroom : width - (1 + utf8StringWidth (rowLead msg hour minute)) = room at hdrawn
  have hstar : esc ∉ lit "* " ∧ utf8IsValidString (lit "* ") = true ∧ utf8StringWidth (lit "* ") = 2 := by decide
  have hstarred : utf8IsValidString (lit "* " ++ msg.content.bytes) = true := by rwa [valid_append hstar.2.1]
  have hfront : rowContent msg hour minute width <+: lit "* " ++ msg.content.bytes := by
    rw [hdrawn, CBuf.copy_bytes_take (valid_zero_notMem hstarred)]
    exact (isPrefix_utf8Truncate _ _).trans (List.take_prefix _ _)
  have hesc : esc ∉ rowContent msg hour minute width := by
    intro h
    rcases List.mem_append.1 (hfront.subset h) with h | h
    · exact hstar.1 h
    · exact absurd (hplain.content _ h).1 (by decide)
  have hhead : isContinuation (byteAt (rowContent msg hour minute width) 0) = false := by
    obtain ⟨rest, hrest⟩ := hfront
    cases hcases : rowContent msg hour minute width with
    | nil => rfl
    | cons b r =>
      rw [hcases] at hrest
      obtain rfl : b = 0x2A := (List.cons.inj hrest).1
      show isContinuation 0x2A = false
      decide
  obtain ⟨hshown, -, -⟩ :=
    @messageRow_text msg hour minute width myUsername code hcode hplain.username hname hesc hhead
  rintro ⟨-, -, -, -, hcut⟩
  obtain ⟨t, ht, htcut, hlongest⟩ := hcut (by rw [utf8StringWidth_rowStart hname hcontent]; exact hover)
  have hvalid := htcut.valid hcontent
  -- Two columns of what is drawn are the star and its space.
  have hsplit : rowContent msg hour minute width = lit "* " ++ t := by
    rw [hshown, lineText_rowSpans, if_pos haction, rowStart, rowLead_action haction] at ht
    simp only [List.append_assoc] at ht
    simpa only [List.append_cancel_left_eq] using ht
  have hcolumns : 2 + utf8StringWidth t ≤ room := by
    have hle := utf8StringWidth_utf8Truncate_le (CBuf.copy MAX_MESSAGE_LEN (lit "* " ++ msg.content.bytes)).bytes room
    rw [← hdrawn, hsplit, utf8StringWidth_append (valid_head hvalid), hstar.2.2] at hle
    exact hle
  -- But the longest front that fits leaves no two columns.
  have hnear := @le_utf8StringWidth_utf8Truncate msg.content.bytes room (by omega)
  have hlong : utf8Truncate msg.content.bytes room <+: t := by
    refine hlongest _ (isCut_utf8Truncate _ _) ?_
    have hle := utf8StringWidth_utf8Truncate_le msg.content.bytes room
    rw [utf8StringWidth_rowStart hname ((isCut_utf8Truncate _ _).valid hcontent)]
    omega
  obtain ⟨rest, hrest⟩ := hlong
  have hvalidRest : utf8IsValidString rest = true := by
    rwa [← hrest, valid_append ((isCut_utf8Truncate _ _).valid hcontent)] at hvalid
  rw [← hrest, utf8StringWidth_append (valid_head hvalidRest)] at hcolumns
  omega

end Text

/-- A row fits its line and shows as much as there is room for, unless it is an action that is cut. -/
theorem messageRow_fits_iff (msg : Message) (hplain : msg.Plain) (hname : utf8IsValidString msg.username.bytes = true)
    (hcontent : utf8IsValidString msg.content.bytes = true) (hour : Fin 24) (minute : Fin 60)
    (viewer : CBuf MAX_USERNAME_LEN) (code : Bytes) (hcode : code ∈ themeCodes) (width : Nat)
    (hwidth : utf8StringWidth (rowStart msg hour minute viewer.bytes) + 4 ≤ width) :
    RowFits msg hour minute width viewer.bytes code ↔
      ¬ (isAction msg = true ∧
        width < utf8StringWidth (rowStart msg hour minute viewer.bytes ++ msg.content.bytes)) := by
  have hnone := @utf8StringWidth_rowStart msg hour minute viewer.bytes hname [] valid_nil
  rw [List.append_nil, show utf8StringWidth [] = 0 from rfl, Nat.add_zero] at hnone
  rw [hnone] at hwidth
  rw [utf8StringWidth_rowStart hname hcontent]
  rcases Nat.lt_or_ge width (1 + utf8StringWidth (rowLead msg hour minute) + utf8StringWidth msg.content.bytes) with
    hover | hfits
  · cases haction : isAction msg with
    | true =>
      exact iff_of_false (not_rowFits_of_action hcode hplain hname hcontent haction hwidth hover)
        fun h => h ⟨rfl, hover⟩
    | false => exact iff_of_true (rowFits_of_cut hcode hplain hname hcontent haction hwidth hover) nofun
  · exact iff_of_true (rowFits_of_le hcode hplain hname hcontent hfits) fun h => absurd h.2 (Nat.not_lt.2 hfits)

theorem messageRow_fits_iff_greeting :
    RowFits ⟨0, CBuf.copy _ (lit "alice"), CBuf.copy _ (lit "你好, bob")⟩ 12 30 20 (lit "bob") (lit "36") :=
  (messageRow_fits_iff ⟨0, CBuf.copy _ (lit "alice"), CBuf.copy _ (lit "你好, bob")⟩ (by decide) (by decide) (by decide)
    12 30 (CBuf.copy _ (lit "bob")) (lit "36") (by decide) 20 (by decide)).2 (by decide)

/-- Two columns stay empty. -/
theorem action_cut_short : ¬ ∀ (msg : Message), msg.Plain → utf8IsValidString msg.username.bytes = true →
    utf8IsValidString msg.content.bytes = true → ∀ (hour : Fin 24) (minute : Fin 60) (viewer : CBuf MAX_USERNAME_LEN)
      (code : Bytes), code ∈ themeCodes → ∀ width,
      utf8StringWidth (rowStart msg hour minute viewer.bytes) + 4 ≤ width →
      RowFits msg hour minute width viewer.bytes code := by
  intro h
  have hfits := h ⟨0, CBuf.copy _ (lit "*"), CBuf.copy _ (lit "alice waves")⟩ (by decide) (by decide) (by decide) 12 30
    (CBuf.copy _ (lit "bob")) (lit "36") (by decide) 16 (by decide)
  exact not_rowFits_of_action (by decide) (by decide) (by decide) (by decide) (by decide) (by decide) (by decide) hfits

end Tnt
