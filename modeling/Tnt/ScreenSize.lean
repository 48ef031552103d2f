import Tnt.Screen
/-!
# How large a screen is (`tui.c`)

A column of the screen takes four bytes at most, so a frame is no larger than the terminal and a few bytes for each row
(`screenSize_le`). On a terminal of at most 132 columns the outbox takes every frame, whatever has been said.
-/
open BaseLib

namespace Tnt

section Bounds
variable {localtime : Int → LocalTime} {c : ScreenClient} {first second messages : List Message}

theorem ten_le_renderWidth (c : ScreenClient) : 10 ≤ c.renderWidth := by
  unfold ScreenClient.renderWidth
  split <;> omega

/-- The rows of the history are no more than there is room for. -/
theorem length_drawRows_le (date : Message → DateText) {msgHeight rowsWritten : Nat} (last : Option DateText)
    (h : rowsWritten ≤ msgHeight) :
    rowsWritten + (drawRows date msgHeight rowsWritten last messages).length ≤ msgHeight := by
  induction messages generalizing rowsWritten last with
  | nil => exact h
  | cons msg rest ih =>
    rw [drawRows]
    split
    · split
      · split
        · rw [List.length_singleton]
          omega
        · have hrest := @ih (rowsWritten + 2) (some (date msg)) (by omega)
          rw [List.length_cons, List.length_cons]
          omega
      · have hrest := @ih (rowsWritten + 1) last (by omega)
        rw [List.length_cons]
        omega
    · exact h

/-- A row of the history takes four bytes for each column, and so many more. -/
theorem rowSize_le (hcode : c.title.code ∈ themeCodes) (row : ScreenRow) :
    rowSize localtime c row ≤ 4 * c.renderWidth + 121 := by
  have hwidth := ten_le_renderWidth c
  have hcolor := (themeCode_text _ hcode).2
  cases row with
  | divider date =>
    rw [rowSize]
    omega
  | message msg =>
    have hname : msg.username.bytes.length < 64 := msg.username.fits
    have hcontent := @length_rowContent_le msg (localtime msg.timestamp).hour (localtime msg.timestamp).minute
      c.renderWidth (by omega)
    rw [rowSize, messageSize]
    split_ifs <;> omega

/-- The frame counts no more messages than the room had. -/
theorem tuiSnapshot_le {δ : Type*} [DecidableEq δ] {date : Message → δ} {normalMode muteJoins : Bool}
    {view : HistoryView} {msgHeight n : Nat} (hfirst : first.length ≤ n) (hsecond : second.length ≤ n) :
    (tuiSnapshot date normalMode muteJoins view msgHeight first second).msgCount ≤ n ∧
      (tuiSnapshot date normalMode muteJoins view msgHeight first second).start ≤ n ∧
      (tuiSnapshot date normalMode muteJoins view msgHeight first second).stop ≤ n := by
  have hlatest (messages : List Message) :
      historyViewLatestStartForHeight date messages msgHeight ≤ messages.length := by
    rcases eq_or_ne messages [] with rfl | hne
    · exact Nat.le_refl 0
    · exact (latestStart_cases date msgHeight hne).1.le
  have hvisible := (List.length_filter_le (!systemMessageIsJoinLeave ·) second).trans hsecond
  have hrange (visible : List Message) (h : visible.length ≤ n) :
      (snapshotRange date normalMode view msgHeight visible).1 ≤ n ∧
        (snapshotRange date normalMode view msgHeight visible).2 ≤ n := by
    have hstart := hlatest visible
    unfold snapshotRange historyViewMaxScroll
    dsimp only
    split_ifs <;> dsimp only <;> omega
  have hwindow : (scrollWindow normalMode view msgHeight first.length).1 ≤ n ∧
      (scrollWindow normalMode view msgHeight first.length).2 ≤ n := by
    unfold scrollWindow historyViewMaxScroll
    dsimp only
    split_ifs <;> omega
  have hcopy (anchor : Bool) (start stop : Nat) (places : Nat × Nat)
      (h : secondPass date anchor start stop msgHeight second = some places) : places.1 ≤ n ∧ places.2 ≤ n := by
    have hstart := hlatest second
    unfold secondPass at h
    dsimp only at h
    split_ifs at h <;> cases h <;> dsimp only <;> omega
  unfold tuiSnapshot
  dsimp only
  split
  · exact ⟨hvisible, hrange _ hvisible⟩
  · split
    · split
      · rename_i hplaces
        exact ⟨hfirst, hcopy _ _ _ _ hplaces⟩
      · exact ⟨hfirst, hwindow⟩
    · exact ⟨hfirst, hwindow⟩

/-- The title takes a byte for each column at most, and so many more. -/
theorem titleSize_le (hc : c.title.Proper) : titleSize c.title c.renderWidth ≤ c.renderWidth + 281 := by
  have hwidth := ten_le_renderWidth c
  have hhint : c.title.hint.length ≤ 8 := by
    unfold TitleClient.hint
    split
    · cases c.title.uiLang <;> decide
    · exact Nat.zero_le 8
  rw [← length_titleLine hc, List.length_append, length_clearEnd]
  unfold titleLine
  dsimp only
  generalize titleFit c.title c.renderWidth = p
  have hgap : titleGap c.title p c.renderWidth ≤ c.renderWidth := by
    unfold titleGap
    omega
  have hright : (lineBytes (titleRight c.title p)).length ≤ 20 := by
    rw [length_titleRight]
    split
    · omega
    · exact Nat.zero_le 20
  have hleft := List.length_take_le (256 - 1) (lineBytes (titleLeft c.title p))
  simp only [List.length_append, List.length_replicate, show (lit " ").length = 1 by decide]
  omega

theorem length_commandDisplay_le (commandInput : CBuf MAX_COMMAND_INPUT_LEN) (width : Int) :
    (commandDisplay commandInput width).length ≤ 257 := by
  unfold commandDisplay formatCommandInputTail
  dsimp only
  split_ifs
  · exact Nat.zero_le 257
  · exact List.length_take_le _ _
  · exact List.length_take_le _ _
  · exact List.length_take_le _ _

/-- The numbers of the status line have three digits at most. -/
theorem length_tuiStatusAppend_le {f : LiveFrame} (hcount : f.msgCount ≤ MAX_MESSAGES) (hstart : f.start ≤ MAX_MESSAGES)
    (hstop : f.stop ≤ MAX_MESSAGES) : (tuiStatusAppend c f.status).length ≤ 270 := by
  obtain ⟨hfrom, hto, htotal, hunseen⟩ : f.status.rangeStart ≤ 101 ∧ f.status.rangeEnd ≤ 101 ∧ f.status.total ≤ 101 ∧
      f.status.unseen.toNat ≤ 101 := by
    simp only [MAX_MESSAGES] at hcount hstart hstop
    unfold LiveFrame.status
    dsimp only
    split <;> omega
  have hdigits {n : Nat} (h : n ≤ 101) : (decimal n).length ≤ 3 := length_decimal_le (by omega)
  have hfirst := hdigits hfrom
  have hlast := hdigits hto
  have hall := hdigits htotal
  have hnew := hdigits hunseen
  unfold tuiStatusAppend
  dsimp only
  cases c.title.mode with
  | insert =>
    dsimp only
    split_ifs
    · cases c.title.uiLang <;> decide
    · decide
    · decide
  | normal =>
    have hlatest : (normalLatest c.title.uiLang).length ≤ 8 := by cases c.title.uiLang <;> decide
    have hmessages : (normalNewMessages c.title.uiLang).length ≤ 9 := by cases c.title.uiLang <;> decide
    have hlits : (lit "7;33").length = 4 ∧ (lit " NORMAL ").length = 8 ∧ (lit "  ").length = 2 ∧
        (lit "2;37").length = 4 ∧ (lit "-").length = 1 ∧ (lit " / ").length = 3 ∧ (lit "   ").length = 3 ∧
        (lit "33").length = 2 ∧ (lit "▼ ").length = 4 ∧ (lit " ").length = 1 ∧ (lit " · ").length = 4 ∧
        ansiReset.length = 4 := by decide
    dsimp only
    split <;> simp only [List.length_append, length_csi, List.length_nil] <;> omega
  | command =>
    have hdisplay := length_commandDisplay_le c.commandInput c.width
    have hlits : (lit "35").length = 2 ∧ (lit ":").length = 1 ∧ ansiReset.length = 4 := by decide
    simp only [List.length_append, length_csi, List.length_nil]
    omega

theorem length_emptyText_le (c : ScreenClient) (first second : List Message) :
    (emptyText c first second).length ≤ 19 := by
  unfold emptyText
  dsimp only
  split_ifs <;> cases c.title.uiLang <;> decide

/-- The bytes of a frame, from the size of the terminal. -/
theorem screenSize_le (hc : c.title.Proper) (hfirst : first.length ≤ MAX_MESSAGES)
    (hsecond : second.length ≤ MAX_MESSAGES) :
    screenSize localtime c first second ≤ c.msgHeight * (4 * c.renderWidth + 121) + 4 * c.renderWidth + 559 := by
  have htitle := titleSize_le hc
  have hheight : 1 ≤ c.msgHeight := one_le_historyViewHeight _
  obtain ⟨htotal, hstart, hstop⟩ : (screenSnapshot localtime c first second).msgCount ≤ MAX_MESSAGES ∧
      (screenSnapshot localtime c first second).start ≤ MAX_MESSAGES ∧
      (screenSnapshot localtime c first second).stop ≤ MAX_MESSAGES := tuiSnapshot_le hfirst hsecond
  have hstatus := @length_tuiStatusAppend_le c ⟨(screenSnapshot localtime c first second).msgCount,
    (screenSnapshot localtime c first second).start, (screenSnapshot localtime c first second).stop, []⟩
    htotal hstart hstop
  have hrows : (if screenRows localtime c first second = [] then
        (c.renderWidth - utf8StringWidth (emptyText c first second)) / 2 + (emptyText c first second).length + 16
      else ((screenRows localtime c first second).map (rowSize localtime c)).sum) +
        5 * (c.msgHeight - if screenRows localtime c first second = [] then 1
          else (screenRows localtime c first second).length) ≤ c.msgHeight * (4 * c.renderWidth + 121) := by
    have hcount : 0 + (screenRows localtime c first second).length ≤ c.msgHeight :=
      length_drawRows_le _ none (Nat.zero_le _)
    have hsum := List.sum_le_card_nsmul ((screenRows localtime c first second).map (rowSize localtime c))
      (4 * c.renderWidth + 121) fun n hn => by
        obtain ⟨row, -, rfl⟩ := List.mem_map.1 hn
        exact rowSize_le hc.code row
    have hempty := length_emptyText_le c first second
    rw [List.length_map, Nat.nsmul_eq_mul] at hsum
    -- A blank row takes no more than another.
    have hblank (k : Nat) : 5 * k ≤ k * (4 * c.renderWidth + 121) := by
      rw [Nat.mul_comm]
      exact Nat.mul_le_mul_left k (by omega)
    generalize screenRows localtime c first second = rows at hcount hsum
    split_ifs
    · obtain ⟨k, hk⟩ := Nat.exists_eq_add_of_le' hheight
      have hrest := hblank k
      rw [hk, Nat.add_mul k 1, Nat.one_mul, Nat.add_sub_cancel]
      omega
    · obtain ⟨k, hk⟩ := Nat.exists_eq_add_of_le' hcount
      have hrest := hblank k
      rw [hk, Nat.zero_add, Nat.add_sub_cancel, Nat.add_mul]
      omega
  unfold screenSize
  dsimp only
  omega

end Bounds

/-- On a terminal of at most 132 columns every frame is sent, whatever the messages in the room are. -/
theorem screen_accepted_of_narrow (localtime : Int → LocalTime) (charSigned : Bool) (c : ScreenClient)
    (hname : isValidUsername charSigned c.title.username.bytes = true) (htheme : c.title.code ∈ themeCodes)
    (hwidth : c.width ≤ 132) (hheight : c.height ≤ 200) (first second : List Message)
    (hfirst : first.length ≤ MAX_MESSAGES) (hsecond : second.length ≤ MAX_MESSAGES) (out : ClientOutput)
    (hempty : out.pending = []) (hconnected : out.connected = true) : FrameAccepted localtime c first second out := by
  have hproper := TitleClient.proper_of_valid hname htheme
  rw [frameAccepted_iff hproper hempty hconnected]
  have hsize := @screenSize_le localtime c first second hproper hfirst hsecond
  have hcolumns : c.renderWidth ≤ 132 := by
    unfold ScreenClient.renderWidth
    split <;> omega
  have hrows : c.msgHeight ≤ 197 ∧ c.msgHeight ≤ c.renderHeight := by
    unfold ScreenClient.msgHeight ScreenClient.renderHeight historyViewHeight
    split_ifs <;> omega
  have hbytes := Nat.mul_le_mul_left c.msgHeight (show 4 * c.renderWidth + 121 ≤ 649 by omega)
  unfold ScreenClient.bufSize
  simp only [MAX_MESSAGE_LEN, CLIENT_OUTBOX_CAPACITY, Nat.le_min]
  omega

end Tnt
