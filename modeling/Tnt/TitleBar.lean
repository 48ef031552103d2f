import Tnt.EscapeKeys
import Tnt.Names
import Tnt.ScreenLine
import Tnt.Terminal
/-!
# The title bar (`tui.c`)

`tui_render_screen` drops parts of its title until what is left fits the terminal. The loop ends when the name is the
only chip, so the unread counts are never dropped: `title_fits_iff`.
-/
open BaseLib

namespace Tnt

/-- What the title reads of the client, and how many are online. -/
structure TitleClient where
  username : CBuf MAX_USERNAME_LEN
  online : IntCount
  mode : ClientMode
  uiLang : UiLang
  muteJoins : Bool
  unreadMentions : IntCount
  unreadWhispers : IntCount
  /-- The colour code of `theme`. -/
  code : Bytes

/-- `I18N_TITLE_ONLINE_FORMAT`, filled in. -/
def titleOnline (n : Nat) : UiLang → Bytes
  | .en => lit "online " ++ decimal n
  | .zh => lit "在线 " ++ decimal n

/-- `I18N_TITLE_MUTED` -/
def titleMuted : UiLang → Bytes
  | .en => lit "muted"
  | .zh => lit "静音"

/-- `I18N_TITLE_HELP_HINT` -/
def titleHelpHint : UiLang → Bytes
  | .en => lit "? keys"
  | .zh => lit "? 按键"

/-- `struct title_chip` -/
structure TitleChip where
  value : Bytes
  /-- The parameters of `value_color`. -/
  valueColor : Bytes

namespace TitleClient

variable (c : TitleClient)

/-- `mode_str` -/
def modeStr : Bytes :=
  match c.mode with
  | .insert => lit "INSERT"
  | .normal => lit "NORMAL"
  | .command => lit "COMMAND"

/-- `mode_color` -/
def modeColor : Bytes :=
  match c.mode with
  | .insert => c.code
  | .normal => lit "33"
  | .command => lit "35"

def chips : List TitleChip :=
  [⟨c.username.bytes, lit "1;37"⟩, ⟨titleOnline c.online c.uiLang, lit "37"⟩, ⟨c.modeStr, c.modeColor⟩]

def hint : Bytes := if c.mode = .normal then titleHelpHint c.uiLang else []

def hintWidth : Nat := utf8StringWidth c.hint

def muteWidth : Nat := if c.muteJoins then utf8StringWidth (titleMuted c.uiLang) + 2 else 0

def unreadBuf : Bytes := if 0 < c.unreadMentions.val then lit "★ " ++ decimal c.unreadMentions else []

def unreadWidth : Nat := if 0 < c.unreadMentions.val then utf8StringWidth c.unreadBuf + 2 else 0

def whisperBuf : Bytes := if 0 < c.unreadWhispers.val then lit "✉ " ++ decimal c.unreadWhispers else []

def whisperWidth : Nat := if 0 < c.unreadWhispers.val then utf8StringWidth c.whisperBuf + 2 else 0

end TitleClient

/-! ## What fits -/

/-- What of the title is shown. -/
structure TitleParts where
  showHint : Bool
  showMute : Bool
  showUnread : Bool
  showWhisper : Bool
  showChips : Nat
  deriving DecidableEq

def TitleClient.allParts (c : TitleClient) : TitleParts where
  showHint := c.hint ≠ []
  showMute := c.muteJoins
  showUnread := 0 < c.unreadMentions.val
  showWhisper := 0 < c.unreadWhispers.val
  showChips := c.chips.length

/-- The columns of the chips, with a dot between any two. -/
def chipsWidth : List TitleChip → Nat
  | [] => 0
  | chip :: rest => utf8StringWidth chip.value + (rest.map fun chip => 3 + utf8StringWidth chip.value).sum

section Fit
variable (c : TitleClient) (p : TitleParts)

/-- `left_width` -/
def titleLeftWidth : Nat :=
  chipsWidth (c.chips.take p.showChips) + (if p.showMute then c.muteWidth else 0) +
    (if p.showUnread then c.unreadWidth + 1 else 0) + if p.showWhisper then c.whisperWidth + 1 else 0

/-- `needed` -/
def titleNeeded : Nat := 1 + titleLeftWidth c p + 1 + if p.showHint then c.hintWidth + 1 else 0

/-- The next part is dropped: hint, mute, mode, online, whispers, mentions. -/
def TitleParts.dropNext : TitleParts :=
  if p.showHint then { p with showHint := false }
  else if p.showMute then { p with showMute := false }
  else if p.showChips > 1 then { p with showChips := p.showChips - 1 }
  else if p.showWhisper then { p with showWhisper := false }
  else if p.showUnread then { p with showUnread := false }
  else p

/-- The loop that drops parts, for so many rounds at most. -/
def titleFitLoop (renderWidth : Nat) : Nat → TitleParts → TitleParts
  | 0, p => p
  | n + 1, p =>
    if p.showChips > 1 then
      if titleNeeded c p ≤ renderWidth then p else titleFitLoop renderWidth n p.dropNext
    else p

/-- What of the title is left. Every round drops one of the hint, the mute marker and two chips. -/
def titleFit (renderWidth : Nat) : TitleParts := titleFitLoop c renderWidth 5 c.allParts

/-! ## The line -/

def TitleChip.spans (chip : TitleChip) : List Span := [.sgr chip.valueColor, .text chip.value, .reset]

/-- The middle dot between two chips. -/
def titleDot : List Span := [.sgr (lit "2;37"), .text (lit " · "), .reset]

def chipsSpans : List TitleChip → List Span
  | [] => []
  | chip :: rest => chip.spans ++ rest.flatMap fun chip => titleDot ++ chip.spans

/-- A marker, two columns behind what is in front of it. -/
def titleMarker (color value : Bytes) : List Span := [.text (lit "  "), .sgr color, .text value, .reset]

/-- `left` -/
def titleLeft : List Span :=
  chipsSpans (c.chips.take p.showChips) ++
    (if p.showMute then titleMarker (lit "2;37") (titleMuted c.uiLang) else []) ++
    (if p.showUnread then titleMarker (lit "1;33") c.unreadBuf else []) ++
    if p.showWhisper then titleMarker (lit "1;35") c.whisperBuf else []

def titleGap (renderWidth : Nat) : Nat :=
  max 1 (renderWidth - titleLeftWidth c p - if p.showHint then c.hintWidth + 2 else 1)

/-- What stands behind the gap. -/
def titleRight : List Span :=
  if p.showHint then [.sgr (lit "2;37"), .text c.hint, .reset, .text (lit " ")] else []

/-- The title, from `left[256]`, up to where the line is cleared. -/
def titleLine (renderWidth : Nat) : Bytes :=
  let p := titleFit c renderWidth
  lit " " ++ (lineBytes (titleLeft c p)).take (256 - 1) ++ List.replicate (titleGap c p renderWidth) 0x20 ++
    lineBytes (titleRight c p)

/-- The segments that may be dropped, from the one of the lowest priority on: whether there is one, and whether it is
shown. -/
def TitleParts.segments : List (Bool × Bool) :=
  [(decide (c.hint ≠ []), p.showHint), (c.muteJoins, p.showMute), (true, decide (3 ≤ p.showChips)),
    (true, decide (2 ≤ p.showChips)), (decide (0 < c.unreadWhispers.val), p.showWhisper),
    (decide (0 < c.unreadMentions.val), p.showUnread)]

/-- The title is no wider than the terminal and shows the name, and what it drops is what matters least. -/
structure TitleFits (renderWidth : Nat) : Prop where
  columns : utf8AnsiStringWidth (titleLine c renderWidth) ≤ renderWidth
  username : ∃ rest, titleLine c renderWidth = lit " " ++ csi (lit "1;37") 0x6D ++ c.username.bytes ++ ansiReset ++ rest
  order : ((titleFit c renderWidth).segments c).Pairwise fun low high =>
    high.1 = true → high.2 = false → low.2 = false

end Fit

/-! ## The loop -/

section Loop
variable {c : TitleClient} {p : TitleParts} {renderWidth : Nat}

/-- What the loop keeps. -/
structure TitleFitting (c : TitleClient) (p : TitleParts) : Prop where
  chips : 1 ≤ p.showChips ∧ p.showChips ≤ 3
  hint : p.showHint = true → c.hint ≠ [] ∧ p.showMute = c.muteJoins ∧ p.showChips = 3
  mute : p.showMute = true → c.muteJoins = true ∧ p.showChips = 3
  unread : p.showUnread = decide (0 < c.unreadMentions.val)
  whisper : p.showWhisper = decide (0 < c.unreadWhispers.val)

theorem allParts_fitting (c : TitleClient) : TitleFitting c c.allParts where
  chips := ⟨Nat.le_of_ble_eq_true rfl, Nat.le_refl 3⟩
  hint h := ⟨of_decide_eq_true h, rfl, rfl⟩
  mute h := ⟨h, rfl⟩
  unread := rfl
  whisper := rfl

/-- While there is a chip to drop, no unread count is dropped. -/
theorem TitleFitting.dropNext (h : TitleFitting c p) (hchips : 1 < p.showChips) : TitleFitting c p.dropNext := by
  obtain ⟨⟨-, hle⟩, -, hmute, hunread, hwhisper⟩ := h
  unfold TitleParts.dropNext
  split
  · exact ⟨⟨Nat.le_of_lt hchips, hle⟩, nofun, hmute, hunread, hwhisper⟩
  · rename_i hhint
    split
    · exact ⟨⟨Nat.le_of_lt hchips, hle⟩, fun h => absurd h hhint, nofun, hunread, hwhisper⟩
    · rename_i hshown
      refine ⟨⟨?_, ?_⟩, fun h => absurd h hhint, fun h => absurd h hshown, hunread, hwhisper⟩
      · show 1 ≤ p.showChips - 1
        omega
      · show p.showChips - 1 ≤ 3
        omega

/-- The rounds that are left. -/
def TitleParts.rounds (p : TitleParts) : Nat := p.showHint.toNat + p.showMute.toNat + p.showChips

theorem rounds_dropNext (hchips : 1 < p.showChips) : p.dropNext.rounds < p.rounds := by
  unfold TitleParts.dropNext TitleParts.rounds
  split
  · rename_i hhint
    rw [hhint]
    simp
  · split
    · rename_i hmute
      rw [hmute]
      simp
    · show p.showHint.toNat + p.showMute.toNat + (p.showChips - 1) < _
      omega

/-- The loop ends when what is left fits, or is the name and the unread counts. -/
theorem titleFitLoop_spec {n : Nat} (h : TitleFitting c p) (hn : p.rounds ≤ n) :
    TitleFitting c (titleFitLoop c renderWidth n p) ∧
      ((titleFitLoop c renderWidth n p).showChips = 1 ∨
        titleNeeded c (titleFitLoop c renderWidth n p) ≤ renderWidth) := by
  induction n generalizing p with
  | zero =>
    have hpos := h.chips.1
    unfold TitleParts.rounds at hn
    omega
  | succ n ih =>
    rw [titleFitLoop]
    split
    · rename_i hchips
      split
      · rename_i hfits
        exact ⟨h, .inr hfits⟩
      · have hless := rounds_dropNext hchips
        exact ih (h.dropNext hchips) (by omega)
    · have hpos := h.chips.1
      exact ⟨h, .inl (by omega)⟩

theorem titleFit_spec (c : TitleClient) (renderWidth : Nat) :
    TitleFitting c (titleFit c renderWidth) ∧
      ((titleFit c renderWidth).showChips = 1 ∨ titleNeeded c (titleFit c renderWidth) ≤ renderWidth) := by
  refine titleFitLoop_spec (allParts_fitting c) ?_
  have hhint := Bool.toNat_le c.allParts.showHint
  have hmute := Bool.toNat_le c.allParts.showMute
  have hchips : c.allParts.showChips = 3 := rfl
  unfold TitleParts.rounds
  omega

/-- Parts go in their order. -/
theorem TitleFitting.order (h : TitleFitting c p) :
    (p.segments c).Pairwise fun low high => high.1 = true → high.2 = false → low.2 = false := by
  obtain ⟨-, hhint, hmute, hunread, hwhisper⟩ := h
  have hgone : p.showChips < 3 → p.showHint = false ∧ p.showMute = false := by
    intro hlt
    refine ⟨Bool.eq_false_iff.2 fun h => ?_, Bool.eq_false_iff.2 fun h => ?_⟩
    · have := (hhint h).2.2
      omega
    · have := (hmute h).2
      omega
  have hfirst : c.muteJoins = true → p.showMute = false → p.showHint = false := by
    intro hjoins hdropped
    refine Bool.eq_false_iff.2 fun h => ?_
    rw [(hhint h).2.1, hjoins] at hdropped
    cases hdropped
  have hkept (b : Bool) (q : Prop) : (b = true → b = false → q) ↔ True := by
    cases b <;> simp
  unfold TitleParts.segments
  rw [hunread, hwhisper]
  generalize decide (0 < c.unreadMentions.val) = unread, decide (0 < c.unreadWhispers.val) = whisper
  simp only [List.pairwise_cons, List.mem_cons, List.not_mem_nil, or_false, forall_eq_or_imp, forall_eq, hkept,
    decide_eq_false_iff_not, Nat.not_le, true_imp_iff, and_true, List.Pairwise.nil, false_imp_iff, implies_true]
  -- The hint, the mute marker, and the two chips.
  refine ⟨⟨hfirst, fun h => (hgone h).1, fun h => (hgone ?_).1⟩, ⟨fun h => (hgone h).2, fun h => (hgone ?_).2⟩,
    fun h => ?_⟩
  all_goals omega

end Loop

/-! ## The columns of the line -/

section Columns
variable {c : TitleClient} {p : TitleParts}

/-- The names and colours that a title is made of. -/
structure TitleClient.Proper (c : TitleClient) : Prop where
  username : esc ∉ c.username.bytes
  code : c.code ∈ themeCodes

theorem TitleClient.proper_of_valid {charSigned : Bool} (hname : isValidUsername charSigned c.username.bytes = true)
    (htheme : c.code ∈ themeCodes) : c.Proper := by
  refine ⟨fun h => ?_, htheme⟩
  rcases validUsername_ge hname _ h with h | h <;> exact absurd h (by decide)

theorem lineWidth_chipsSpans (chips : List TitleChip) : lineWidth (chipsSpans chips) = chipsWidth chips := by
  have hchip (chip : TitleChip) : lineWidth chip.spans = utf8StringWidth chip.value := by
    show 0 + (utf8StringWidth chip.value + 0) = _
    omega
  have hdot : lineWidth titleDot = 3 := by decide +kernel
  have hrest (rest : List TitleChip) : lineWidth (rest.flatMap fun chip => titleDot ++ chip.spans) =
      (rest.map fun chip => 3 + utf8StringWidth chip.value).sum := by
    induction rest with
    | nil => rfl
    | cons chip rest ih =>
      rw [List.flatMap_cons, lineWidth_append, lineWidth_append, hdot, hchip, ih, List.map_cons, List.sum_cons]
  cases chips with
  | nil => rfl
  | cons chip rest => rw [chipsSpans, lineWidth_append, hchip, hrest, chipsWidth]

theorem lineWidth_titleMarker (color value : Bytes) :
    lineWidth (titleMarker color value) = 2 + utf8StringWidth value := by
  have hgap : utf8StringWidth (lit "  ") = 2 := by decide
  show utf8StringWidth (lit "  ") + (0 + (utf8StringWidth value + 0)) = _
  omega

/-- The codes of the themes are those of colours. -/
theorem themeCode_text : ∀ code ∈ themeCodes, endsFirst code 0x6D = true ∧ code.length ≤ 2 := by decide

theorem tidy_chip {chip : TitleChip} (hc : c.Proper) (h : chip ∈ c.chips) : Tidy chip.spans := by
  obtain ⟨hname, hcode⟩ := hc
  have hcolor : endsFirst c.modeColor 0x6D = true := by
    unfold TitleClient.modeColor
    split
    · exact (themeCode_text _ hcode).1
    · decide
    · decide
  have hbold : endsFirst (lit "1;37") 0x6D = true ∧ endsFirst (lit "37") 0x6D = true := by decide
  have honline : esc ∉ titleOnline c.online c.uiLang := by
    unfold titleOnline
    split
    · exact List.mem_append.not.2 (not_or.2 ⟨by decide, esc_notMem_decimal _⟩)
    · exact List.mem_append.not.2 (not_or.2 ⟨by decide, esc_notMem_decimal _⟩)
  have hmode : esc ∉ c.modeStr := by
    unfold TitleClient.modeStr
    cases c.mode <;> decide
  simp only [TitleClient.chips, List.mem_cons, List.not_mem_nil, or_false] at h
  rcases h with rfl | rfl | rfl
  · exact tidy_styled hbold.1 hname
  · exact tidy_styled hbold.2 honline
  · exact tidy_styled hcolor hmode

theorem tidy_chipsSpans {chips : List TitleChip} (h : ∀ chip ∈ chips, Tidy chip.spans) : Tidy (chipsSpans chips) := by
  have hdot : Tidy titleDot := tidy_styled (by decide) (by decide)
  cases chips with
  | nil => exact tidy_nil
  | cons chip rest =>
    rw [List.forall_mem_cons] at h
    refine h.1.append ?_
    have hrest := h.2
    clear h
    induction rest with
    | nil => exact tidy_nil
    | cons chip rest ih =>
      rw [List.forall_mem_cons] at hrest
      exact (hdot.append hrest.1).append (ih hrest.2)

theorem tidy_titleMarker {color value : Bytes} (hcolor : endsFirst color 0x6D = true) (hvalue : esc ∉ value) :
    Tidy (titleMarker color value) :=
  (tidy_text (t := lit "  ") (by decide) (by decide)).append (tidy_styled hcolor hvalue)

theorem tidy_titleLeft (hc : c.Proper) (p : TitleParts) : Tidy (titleLeft c p) := by
  have hmute : esc ∉ titleMuted c.uiLang := by cases c.uiLang <;> decide
  have hunread : esc ∉ c.unreadBuf := by
    unfold TitleClient.unreadBuf
    split
    · exact List.mem_append.not.2 (not_or.2 ⟨by decide, esc_notMem_decimal _⟩)
    · exact List.not_mem_nil
  have hwhisper : esc ∉ c.whisperBuf := by
    unfold TitleClient.whisperBuf
    split
    · exact List.mem_append.not.2 (not_or.2 ⟨by decide, esc_notMem_decimal _⟩)
    · exact List.not_mem_nil
  have hchips : Tidy (chipsSpans (c.chips.take p.showChips)) :=
    tidy_chipsSpans fun chip h => tidy_chip hc (List.mem_of_mem_take h)
  exact ((hchips.append ((tidy_titleMarker (by decide) hmute).ite _)).append
    ((tidy_titleMarker (by decide) hunread).ite _)).append ((tidy_titleMarker (by decide) hwhisper).ite _)

theorem length_styled (color value : Bytes) :
    (lineBytes [.sgr color, .text value, .reset]).length = color.length + value.length + 7 := by
  simp [Span.bytes, Span.sgr, Span.reset, csi, show (lit "0").length = 1 by decide]
  omega

theorem length_titleMarker (color value : Bytes) :
    (lineBytes (titleMarker color value)).length = color.length + value.length + 9 := by
  have hstyled := length_styled color value
  rw [titleMarker, lineBytes_cons, List.length_append, hstyled, Span.bytes, show (lit "  ").length = 2 by decide]
  omega

theorem length_titleRight (c : TitleClient) (p : TitleParts) :
    (lineBytes (titleRight c p)).length = if p.showHint then c.hint.length + 12 else 0 := by
  have hhint : (lineBytes [.sgr (lit "2;37"), .text c.hint, .reset, .text (lit " ")]).length = c.hint.length + 12 := by
    have hlits : (lit "2;37").length = 4 ∧ (lit " ").length = 1 := by decide
    rw [show ([.sgr (lit "2;37"), .text c.hint, .reset, .text (lit " ")] : List Span) =
      [.sgr (lit "2;37"), .text c.hint, .reset] ++ [.text (lit " ")] from rfl, lineBytes_append, List.length_append,
      length_styled, lineBytes_cons, lineBytes_nil, List.append_nil, Span.bytes]
    omega
  rw [titleRight, length_lineBytes_ite, hhint]

/-- Fewer chips take fewer bytes. -/
theorem chipsSpans_take (chips : List TitleChip) (n : Nat) : chipsSpans (chips.take n) <+: chipsSpans chips := by
  cases chips with
  | nil => rw [List.take_nil]
  | cons chip rest =>
    cases n with
    | zero => exact List.nil_prefix
    | succ n => exact (List.prefix_append_right_inj chip.spans).2 ((List.take_prefix n rest).flatMap _)

/-- `left` has room for all parts. -/
theorem length_titleLeft (hc : c.Proper) (p : TitleParts) : (lineBytes (titleLeft c p)).length ≤ 255 := by
  have hname : c.username.bytes.length < 64 := c.username.fits
  have honline : (titleOnline c.online c.uiLang).length ≤ 17 := by
    have hdigits := length_decimal_intCount c.online
    unfold titleOnline
    split
    · rw [List.length_append, show (lit "online ").length = 7 by decide]
      omega
    · rw [List.length_append, show (lit "在线 ").length = 7 by decide]
      omega
  have hmode : c.modeStr.length ≤ 7 := by
    unfold TitleClient.modeStr
    cases c.mode <;> decide
  have hcolor : c.modeColor.length ≤ 2 := by
    unfold TitleClient.modeColor
    split
    · exact (themeCode_text _ hc.code).2
    · decide
    · decide
  have hmuted : (titleMuted c.uiLang).length ≤ 6 := by cases c.uiLang <;> decide
  have hunread : c.unreadBuf.length ≤ 14 := by
    have hdigits := length_decimal_intCount c.unreadMentions
    unfold TitleClient.unreadBuf
    split
    · rw [List.length_append, show (lit "★ ").length = 4 by decide]
      omega
    · exact Nat.zero_le _
  have hwhisper : c.whisperBuf.length ≤ 14 := by
    have hdigits := length_decimal_intCount c.unreadWhispers
    unfold TitleClient.whisperBuf
    split
    · rw [List.length_append, show (lit "✉ ").length = 4 by decide]
      omega
    · exact Nat.zero_le _
  have hchips : (lineBytes (chipsSpans (c.chips.take p.showChips))).length ≤ 146 := by
    have hall : lineBytes (chipsSpans (c.chips.take p.showChips)) <+: lineBytes (chipsSpans c.chips) :=
      (chipsSpans_take c.chips p.showChips).flatMap _
    refine hall.length_le.trans ?_
    have hlits : (lit "1;37").length = 4 ∧ (lit "37").length = 2 ∧ (lit "2;37").length = 4 ∧
        (lit " · ").length = 4 := by decide
    simp only [TitleClient.chips, chipsSpans, List.flatMap_cons, List.flatMap_nil, lineBytes_append, List.length_append,
      TitleChip.spans, titleDot, length_styled, lineBytes_nil, List.length_nil]
    omega
  have hif {b : Bool} {line : List Span} {n : Nat} (h : (lineBytes line).length ≤ n) :
      (lineBytes (if b = true then line else [])).length ≤ n := by
    split
    · exact h
    · exact Nat.zero_le n
  have hmarker {color value : Bytes} {n : Nat} (hcolor : color.length = 4) (hvalue : value.length ≤ n) :
      (lineBytes (titleMarker color value)).length ≤ n + 13 := by
    rw [length_titleMarker]
    omega
  have hmute := @hif p.showMute _ _ (hmarker (show (lit "2;37").length = 4 by decide) hmuted)
  have hmentions := @hif p.showUnread _ _ (hmarker (show (lit "1;33").length = 4 by decide) hunread)
  have hwhispers := @hif p.showWhisper _ _ (hmarker (show (lit "1;35").length = 4 by decide) hwhisper)
  rw [titleLeft, lineBytes_append, lineBytes_append, lineBytes_append, List.length_append, List.length_append,
    List.length_append]
  omega

/-- The parts of the line. -/
def titleSpans (c : TitleClient) (p : TitleParts) (renderWidth : Nat) : List Span :=
  .text (lit " ") :: (titleLeft c p ++ .text (List.replicate (titleGap c p renderWidth) 0x20) :: titleRight c p)

theorem titleLine_eq (hc : c.Proper) (renderWidth : Nat) :
    titleLine c renderWidth = lineBytes (titleSpans c (titleFit c renderWidth) renderWidth) := by
  have hroom := length_titleLeft hc (titleFit c renderWidth)
  rw [titleLine, List.take_of_length_le hroom]
  simp [titleSpans, Span.bytes]

theorem tidy_titleSpans (hc : c.Proper) (p : TitleParts) (renderWidth : Nat) : Tidy (titleSpans c p renderWidth) := by
  have hhint : esc ∉ c.hint := by
    unfold TitleClient.hint
    split
    · cases c.uiLang <;> decide
    · exact List.not_mem_nil
  have hright : Tidy (titleRight c p) := ((tidy_styled (by decide) hhint).append (tidy_spaces 1)).ite _
  exact (tidy_spaces 1).append ((tidy_titleLeft hc p).append ((tidy_spaces _).append hright))

/-- The columns of the line: those of a marker of an unread count are one fewer than `left_width` has them. -/
theorem ansiWidth_titleLine (hc : c.Proper) (renderWidth : Nat) (hp : titleFit c renderWidth = p) :
    utf8AnsiStringWidth (titleLine c renderWidth) =
      1 + (chipsWidth (c.chips.take p.showChips) +
        (if p.showMute then 2 + utf8StringWidth (titleMuted c.uiLang) else 0) +
        (if p.showUnread then 2 + utf8StringWidth c.unreadBuf else 0) +
        (if p.showWhisper then 2 + utf8StringWidth c.whisperBuf else 0)) + titleGap c p renderWidth +
        (if p.showHint then c.hintWidth + 1 else 0) := by
  have hspace : utf8StringWidth (lit " ") = 1 := by decide
  have hright : lineWidth (titleRight c p) = if p.showHint then c.hintWidth + 1 else 0 := by
    rw [titleRight, lineWidth_ite]
    split
    · show 0 + (c.hintWidth + (0 + (utf8StringWidth (lit " ") + 0))) = _
      omega
    · rfl
  rw [titleLine_eq hc, hp, ansiWidth_spans (tidy_titleSpans hc p renderWidth).legible, titleSpans, lineWidth_cons,
    lineWidth_append, lineWidth_cons, hright, Span.width, Span.width, hspace, utf8StringWidth_spaces, titleLeft,
    lineWidth_append, lineWidth_append, lineWidth_append, lineWidth_chipsSpans, lineWidth_ite, lineWidth_ite,
    lineWidth_ite, lineWidth_titleMarker, lineWidth_titleMarker, lineWidth_titleMarker]
  omega

/-- What `left_width` counts is no less than what the parts take. -/
theorem le_titleLeftWidth (h : TitleFitting c p) :
    chipsWidth (c.chips.take p.showChips) + (if p.showMute then 2 + utf8StringWidth (titleMuted c.uiLang) else 0) +
        (if p.showUnread then 2 + utf8StringWidth c.unreadBuf else 0) +
        (if p.showWhisper then 2 + utf8StringWidth c.whisperBuf else 0) ≤ titleLeftWidth c p := by
  obtain ⟨-, -, hmute, hunread, hwhisper⟩ := h
  have hmuted : (if p.showMute then 2 + utf8StringWidth (titleMuted c.uiLang) else 0) ≤
      if p.showMute then c.muteWidth else 0 := by
    split
    · rename_i hshown
      rw [TitleClient.muteWidth, if_pos (hmute hshown).1, Nat.add_comm]
    · exact Nat.le_refl 0
  have hmentions : (if p.showUnread then 2 + utf8StringWidth c.unreadBuf else 0) ≤
      if p.showUnread then c.unreadWidth + 1 else 0 := by
    split
    · rename_i hshown
      rw [TitleClient.unreadWidth, if_pos (of_decide_eq_true (hunread ▸ hshown))]
      omega
    · exact Nat.le_refl 0
  have hwhispers : (if p.showWhisper then 2 + utf8StringWidth c.whisperBuf else 0) ≤
      if p.showWhisper then c.whisperWidth + 1 else 0 := by
    split
    · rename_i hshown
      rw [TitleClient.whisperWidth, if_pos (of_decide_eq_true (hwhisper ▸ hshown))]
      omega
    · exact Nat.le_refl 0
  unfold titleLeftWidth
  omega

/-- The name is always the first chip. -/
theorem chips_take (h : TitleFitting c p) :
    ∃ rest, c.chips.take p.showChips = ⟨c.username.bytes, lit "1;37"⟩ :: rest := by
  obtain ⟨k, hk⟩ := Nat.exists_eq_add_of_le' h.chips.1
  exact ⟨_, by rw [hk]; rfl⟩

end Columns

/-- The title fits if and only if the name and the unread counts do. -/
theorem title_fits_iff (charSigned : Bool) (c : TitleClient) (hname : isValidUsername charSigned c.username.bytes = true)
    (htheme : c.code ∈ themeCodes) (renderWidth : Nat) :
    TitleFits c renderWidth ↔
      2 + utf8StringWidth c.username.bytes +
          (if 0 < c.unreadMentions.val then 2 + utf8StringWidth (lit "★ " ++ decimal c.unreadMentions) else 0) +
          (if 0 < c.unreadWhispers.val then 2 + utf8StringWidth (lit "✉ " ++ decimal c.unreadWhispers) else 0) ≤
        renderWidth := by
  have hproper := TitleClient.proper_of_valid hname htheme
  obtain ⟨hfit, hend⟩ := titleFit_spec c renderWidth
  have hline := titleLine_eq hproper renderWidth
  have hcolumns := ansiWidth_titleLine hproper renderWidth rfl
  have hleft := le_titleLeftWidth hfit
  obtain ⟨rest, hrest⟩ := chips_take hfit
  have hname_le : utf8StringWidth c.username.bytes ≤ chipsWidth (c.chips.take (titleFit c renderWidth).showChips) := by
    rw [hrest]
    exact Nat.le_add_right _ _
  have hunread : (if (titleFit c renderWidth).showUnread then 2 + utf8StringWidth c.unreadBuf else 0) =
      if 0 < c.unreadMentions.val then 2 + utf8StringWidth (lit "★ " ++ decimal c.unreadMentions) else 0 := by
    rw [hfit.unread, TitleClient.unreadBuf]
    split <;> simp_all
  have hwhisper : (if (titleFit c renderWidth).showWhisper then 2 + utf8StringWidth c.whisperBuf else 0) =
      if 0 < c.unreadWhispers.val then 2 + utf8StringWidth (lit "✉ " ++ decimal c.unreadWhispers) else 0 := by
    rw [hfit.whisper, TitleClient.whisperBuf]
    split <;> simp_all
  rw [hunread, hwhisper] at hcolumns hleft
  have hgap := Nat.le_max_left 1 (renderWidth - titleLeftWidth c (titleFit c renderWidth) -
    if (titleFit c renderWidth).showHint then c.hintWidth + 2 else 1)
  constructor
  · rintro ⟨hle, -, -⟩
    rw [hcolumns, titleGap] at hle
    omega
  · intro hfits
    refine ⟨?_, ?_, hfit.order⟩
    · rw [hcolumns, titleGap]
      rcases hend with hone | hneeded
      · -- The name is the only chip: the other parts went before.
        have hshown : chipsWidth (c.chips.take (titleFit c renderWidth).showChips) =
            utf8StringWidth c.username.bytes := by
          rw [hone]
          rfl
        have hhint : (titleFit c renderWidth).showHint = false := by
          refine Bool.eq_false_iff.2 fun h => ?_
          have := (hfit.hint h).2.2
          omega
        have hmute : (titleFit c renderWidth).showMute = false := by
          refine Bool.eq_false_iff.2 fun h => ?_
          have := (hfit.mute h).2
          omega
        simp only [hshown, hhint, hmute, Bool.false_eq_true, if_false] at hleft ⊢
        omega
      · unfold titleNeeded at hneeded
        split at hneeded <;> simp_all <;> omega
    · rw [hline, titleSpans, titleLeft, hrest]
      exact ⟨_, by simp [chipsSpans, TitleChip.spans, Span.bytes, Span.sgr, Span.reset, csi, ansiReset, lit]; rfl⟩

/-- Alice, who types and has been mentioned once. -/
def mentionedAlice : TitleClient :=
  ⟨CBuf.copy _ (lit "alice"), 1, .insert, .en, false, 1, 0, lit "36"⟩

theorem title_fits_iff_alice : TitleFits mentionedAlice 12 :=
  (title_fits_iff true mentionedAlice (by decide) (by decide) 12).2 (by decide)

/-- The star goes over the edge, though the name would fit. -/
theorem title_overflows : ¬ ∀ (charSigned : Bool) (c : TitleClient),
    isValidUsername charSigned c.username.bytes = true → c.code ∈ themeCodes → ∀ renderWidth, 10 ≤ renderWidth →
      2 + utf8StringWidth c.username.bytes ≤ renderWidth → TitleFits c renderWidth := by
  intro h
  have hcolumns := (h true mentionedAlice (by decide) (by decide) 10 (by decide) (by decide)).columns
  exact absurd hcolumns (by decide +kernel)

end Tnt
