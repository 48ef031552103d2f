import Tnt.Lib.Headings
import Tnt.Lib.Runs
import Tnt.Bootstrap
import Tnt.SystemMessage
/-!
# The messages on the screen (`history_view.c`, `tui.c`)

In NORMAL mode the screen shows the messages from `scroll_pos` on, or the newest ones where that is the end of
the scroll. The scroll counts messages, but a row goes to every date, so some messages may be on no screen:
`history_shown_iff` says when none are missed.

The day of a message depends on the time zone, so it is a parameter, `date`.
-/
open BaseLib

namespace Tnt

/-! ## `history_view.c` -/

/-- `history_view_height` -/
def historyViewHeight (terminalHeight : Nat) : Nat :=
  if terminalHeight - 3 < 1 then 1 else terminalHeight - 3

/-- `history_view_max_scroll` -/
def historyViewMaxScroll (messageCount viewHeight : Nat) : Nat := messageCount - viewHeight

/-- `scroll_pos` and `follow_tail`. -/
structure HistoryView where
  scrollPos : Nat
  followTail : Bool
  deriving DecidableEq

/-- `history_view_scroll_to_latest` -/
def historyViewScrollToLatest (messageCount viewHeight : Nat) : HistoryView :=
  ⟨historyViewMaxScroll messageCount viewHeight, true⟩

/-- `history_view_scroll_to_oldest` -/
def historyViewScrollToOldest : HistoryView := ⟨0, false⟩

/-- `history_view_scroll_by` -/
def historyViewScrollBy (view : HistoryView) (messageCount viewHeight : Nat) (delta : Int) : HistoryView :=
  let maxScroll : Int := historyViewMaxScroll messageCount viewHeight
  let pos : Int := if view.followTail && delta < 0 then maxScroll else view.scrollPos
  let pos := pos + delta
  let pos := if pos < 0 then 0 else if pos > maxScroll then maxScroll else pos
  ⟨pos.toNat, pos ≥ maxScroll⟩

variable {δ : Type*} [DecidableEq δ] (date : Message → δ)

/-- The loop of `rendered_rows_for_slice`. -/
def countRows : Nat → Option δ → List Message → Nat
  | n, _, [] => n
  | n, lastDate, msg :: rest =>
    if some (date msg) ≠ lastDate then countRows (n + 2) (some (date msg)) rest else countRows (n + 1) lastDate rest

/-- `rendered_rows_for_slice` -/
def renderedRowsForSlice (messages : List Message) (start stop : Nat) : Nat :=
  countRows date 0 none ((messages.take stop).drop start)

/-- The loop of `history_view_latest_start_for_height`, with the candidates from `candidate - 1` down. -/
def latestStartLoop (messages : List Message) (height : Nat) : Nat → Nat → Nat
  | 0, start => start
  | candidate + 1, start =>
    if renderedRowsForSlice date messages candidate messages.length > height then start
    else latestStartLoop messages height candidate candidate

/-- `history_view_latest_start_for_height` -/
def historyViewLatestStartForHeight (messages : List Message) (height : Nat) : Nat :=
  let count := messages.length
  let start := latestStartLoop date messages height count count
  if start = count ∧ count > 0 then count - 1 else start

/-! ## `tui_render_screen` -/

/-- The messages a session reads: without the notices of joins and leaves, where it mutes them. -/
def visibleMessages (muteJoins : Bool) (messages : List Message) : List Message :=
  if muteJoins then messages.filter (!systemMessageIsJoinLeave ·) else messages

/-- The loop that draws the messages, and what it draws. -/
def drawMessages (msgHeight : Nat) : Nat → Option δ → List Message → List Message
  | _, _, [] => []
  | rowsWritten, lastDate, msg :: rest =>
    if rowsWritten < msgHeight then
      if some (date msg) ≠ lastDate then
        -- The divider may take the last row.
        if rowsWritten + 1 ≥ msgHeight then []
        else msg :: drawMessages msgHeight (rowsWritten + 2) (some (date msg)) rest
      else msg :: drawMessages msgHeight (rowsWritten + 1) lastDate rest
    else []

/-- The messages of a frame, and the place of the first one in the history. -/
structure HistoryFrame where
  start : Nat
  drawn : List Message
  deriving DecidableEq

/-- `anchor_latest` -/
def anchorLatest (normalMode : Bool) (view : HistoryView) (msgCount msgHeight : Nat) : Bool :=
  !normalMode || view.followTail || decide (view.scrollPos ≥ historyViewMaxScroll msgCount msgHeight)

/-- The messages to copy, from the first place to before the second. -/
def snapshotRange (normalMode : Bool) (view : HistoryView) (msgHeight : Nat) (visible : List Message) : Nat × Nat :=
  let msgCount := visible.length
  let latestScrollStart := historyViewMaxScroll msgCount msgHeight
  let start :=
    if normalMode then if view.scrollPos > latestScrollStart then latestScrollStart else view.scrollPos
    else latestScrollStart
  let stop := if start + msgHeight > msgCount then msgCount else start + msgHeight
  if anchorLatest normalMode view msgCount msgHeight then
    (historyViewLatestStartForHeight date visible msgHeight, msgCount)
  else (start, stop)

/-- `tui_render_screen`, as far as it concerns the messages, while no new ones arrive. -/
def tuiRenderScreen (normalMode muteJoins : Bool) (view : HistoryView) (terminalHeight : Nat)
    (messages : List Message) : HistoryFrame :=
  let renderHeight := if terminalHeight < 4 then 4 else terminalHeight
  let msgHeight := historyViewHeight renderHeight
  let visible := visibleMessages muteJoins messages
  let (start, stop) := snapshotRange date normalMode view msgHeight visible
  let snapshot := (visible.take stop).drop start
  -- The copy under the lock has room for `msg_height` messages.
  let snapshot := if muteJoins = false ∧ snapshot.length > msgHeight then [] else snapshot
  let snapshot :=
    if muteJoins ∧ anchorLatest normalMode view visible.length msgHeight = false then
      snapshot.filter (!systemMessageIsJoinLeave ·)
    else snapshot
  ⟨start, drawMessages date msgHeight 0 none snapshot⟩

/-- The message at place `i` of the history is on the screen. -/
def HistoryFrame.Shows (f : HistoryFrame) (i : Nat) (msg : Message) : Prop :=
  f.start ≤ i ∧ f.drawn[i - f.start]? = some msg

/-! ## Scrolling -/

inductive ScrollOp
  | by (delta : Int)
  | toLatest
  | toOldest
  deriving DecidableEq

/-- A key in NORMAL mode. -/
def scrollStep (messageCount viewHeight : Nat) (view : HistoryView) : ScrollOp → Option HistoryView
  | .by delta => some (historyViewScrollBy view messageCount viewHeight delta)
  | .toLatest => some (historyViewScrollToLatest messageCount viewHeight)
  | .toOldest => some historyViewScrollToOldest

/-- The views a session can come to: a new one follows the newest message. -/
def HistoryView.Scrolled (messageCount viewHeight : Nat) (view : HistoryView) : Prop :=
  Reachable (scrollStep messageCount viewHeight) ⟨0, true⟩ view

/-! ## What a frame shows -/

section Frame
variable {date} {messages : List Message} {height terminalHeight start i : Nat} {msg : Message}

theorem countRows_eq (n : Nat) (last : Option δ) (l : List Message) :
    countRows date n last l = n + rows date last l := by
  induction l generalizing n last with
  | nil => rfl
  | cons m l ih =>
    rw [countRows, rows_cons, itemRows]
    split
    · rename_i hne
      rw [ih, Nat.add_assoc]
    · rename_i heq
      rw [not_not] at heq
      rw [ih, if_pos heq, heq, Nat.add_assoc]

theorem drawMessages_eq (row : Nat) (last : Option δ) (l : List Message) :
    drawMessages date height row last l = layOut date height row last l := by
  induction l generalizing row last with
  | nil => rfl
  | cons m l ih =>
    rw [drawMessages, layOut, itemRows]
    by_cases heq : some (date m) = last
    · rw [if_neg (not_not.2 heq), if_pos heq, heq, ih]
      rfl
    · rw [if_pos heq, if_neg heq, ih]
      split
      · split
        · rw [if_neg (by omega)]
        · rw [if_pos (by omega)]
      · rw [if_neg (by omega)]

theorem renderedRows_eq (start stop : Nat) :
    renderedRowsForSlice date messages start stop = rows date none ((messages.take stop).drop start) := by
  rw [renderedRowsForSlice, countRows_eq, Nat.zero_add]

theorem renderedRows_length (start : Nat) :
    renderedRowsForSlice date messages start messages.length = rows date none (messages.drop start) := by
  rw [renderedRows_eq, List.take_length]

/-- The window of the newest messages grows while it fits. -/
theorem latestStartLoop_fits {n : Nat} (hn : n ≤ start) (hfits : rows date none (messages.drop start) ≤ height) :
    latestStartLoop date messages height n start ≤ start ∧
      rows date none (messages.drop (latestStartLoop date messages height n start)) ≤ height := by
  induction n generalizing start with
  | zero => exact ⟨Nat.le_refl start, hfits⟩
  | succ n ih =>
    rw [latestStartLoop, renderedRows_length]
    split
    · exact ⟨Nat.le_refl start, hfits⟩
    · rename_i hmore
      obtain ⟨hle, hrows⟩ := ih (Nat.le_refl n) (Nat.not_lt.1 hmore)
      exact ⟨hle.trans (Nat.le_of_succ_le hn), hrows⟩

/-- It fits, or is the newest message alone. -/
theorem latestStart_cases (date : Message → δ) (height : Nat) (hne : messages ≠ []) :
    historyViewLatestStartForHeight date messages height < messages.length ∧
      (rows date none (messages.drop (historyViewLatestStartForHeight date messages height)) ≤ height ∨
        historyViewLatestStartForHeight date messages height + 1 = messages.length) := by
  have hpos : 0 < messages.length := List.length_pos_of_ne_nil hne
  have hempty : rows date none (messages.drop messages.length) ≤ height := by
    rw [List.drop_length]
    exact Nat.zero_le _
  obtain ⟨hle, hrows⟩ := latestStartLoop_fits (Nat.le_refl messages.length) hempty
  unfold historyViewLatestStartForHeight
  dsimp only
  split
  · exact ⟨Nat.sub_lt hpos Nat.one_pos, .inr (Nat.sub_add_cancel hpos)⟩
  · exact ⟨by omega, .inl hrows⟩

theorem latestStart_rows (hheight : 2 ≤ height) (hne : messages ≠ []) :
    rows date none (messages.drop (historyViewLatestStartForHeight date messages height)) ≤ height := by
  rcases (latestStart_cases date height hne).2 with hrows | hlast
  · exact hrows
  · have htwo : rows date none (messages.drop (historyViewLatestStartForHeight date messages height)) ≤ 2 * 1 := by
      refine (rows_le_two_mul _ _).trans (Nat.mul_le_mul_left 2 ?_)
      rw [List.length_drop]
      omega
    omega

theorem latestStart_length (hheight : 1 ≤ height) (messages : List Message) :
    (messages.drop (historyViewLatestStartForHeight date messages height)).length ≤ height := by
  rcases eq_or_ne messages [] with rfl | hne
  · exact Nat.zero_le _
  rcases (latestStart_cases date height hne).2 with hrows | hlast
  · exact (length_le_rows _ _).trans hrows
  · rw [List.length_drop]
    omega

/-- The rows there are for messages. -/
theorem historyViewHeight_clamp (terminalHeight : Nat) :
    historyViewHeight (if terminalHeight < 4 then 4 else terminalHeight) = historyViewHeight terminalHeight := by
  split
  · rw [historyViewHeight, historyViewHeight, if_neg (by omega), if_pos (by omega)]
  · rfl

theorem one_le_historyViewHeight (terminalHeight : Nat) : 1 ≤ historyViewHeight terminalHeight := by
  unfold historyViewHeight
  split <;> omega

/-- What a frame shows of the messages a session reads: as many as fit from `scroll_pos` on, or the newest. -/
def historyFrame (date : Message → δ) (view : HistoryView) (height : Nat) (visible : List Message) : HistoryFrame :=
  if view.followTail = true ∨ visible.length - height ≤ view.scrollPos then
    let start := historyViewLatestStartForHeight date visible height
    ⟨start, layOut date height 0 none (visible.drop start)⟩
  else ⟨view.scrollPos, layOut date height 0 none ((visible.drop view.scrollPos).take height)⟩

variable {muteJoins : Bool} {view : HistoryView} {visible : List Message}

/-- The copy has room for the messages of the frame. -/
theorem historyFrame_eq (date : Message → δ) (view : HistoryView) (visible : List Message) (hheight : 1 ≤ height) :
    ∃ start stop, snapshotRange date true view height visible = (start, stop) ∧
      ((visible.take stop).drop start).length ≤ height ∧
      historyFrame date view height visible = ⟨start, layOut date height 0 none ((visible.take stop).drop start)⟩ := by
  by_cases hend : view.followTail = true ∨ visible.length - height ≤ view.scrollPos
  · have hanchor : anchorLatest true view visible.length height = true := by
      simpa [anchorLatest, historyViewMaxScroll] using hend
    refine ⟨_, _, if_pos hanchor, ?_, ?_⟩
    · rw [List.take_length]
      exact latestStart_length hheight visible
    · rw [historyFrame, if_pos hend, List.take_length]
  · rw [not_or, Bool.not_eq_true, Nat.not_le] at hend
    have hanchor : anchorLatest true view visible.length height = false := by
      simp only [anchorLatest, historyViewMaxScroll, hend.1, Bool.not_true, Bool.or_self, Bool.false_or]
      exact decide_eq_false (Nat.not_le.2 hend.2)
    have hstart : ¬ view.scrollPos > historyViewMaxScroll visible.length height := Nat.not_lt.2 (Nat.le_of_lt hend.2)
    have hslice : (visible.take (view.scrollPos + height)).drop view.scrollPos =
        (visible.drop view.scrollPos).take height := by
      rw [List.drop_take, Nat.add_sub_cancel_left]
    refine ⟨view.scrollPos, view.scrollPos + height, ?_, ?_, ?_⟩
    · simp only [snapshotRange, hanchor, if_neg hstart, Bool.false_eq_true, if_false, if_true]
      rw [if_neg (by omega)]
    · rw [hslice]
      exact List.length_take_le _ _
    · rw [historyFrame, if_neg, hslice]
      rw [not_or, Bool.not_eq_true, Nat.not_le]
      exact hend

/-- `tui_render_screen` draws it in NORMAL mode. -/
theorem tuiRenderScreen_eq (date : Message → δ) (muteJoins : Bool) (view : HistoryView) (terminalHeight : Nat)
    (messages : List Message) :
    tuiRenderScreen date true muteJoins view terminalHeight messages =
      historyFrame date view (historyViewHeight terminalHeight) (visibleMessages muteJoins messages) := by
  obtain ⟨start, stop, hrange, hroom, hframe⟩ := historyFrame_eq date view
    (visibleMessages muteJoins messages) (one_le_historyViewHeight terminalHeight)
  have hread : ∀ m ∈ ((visibleMessages muteJoins messages).take stop).drop start,
      m ∈ visibleMessages muteJoins messages :=
    fun m hm => List.mem_of_mem_take (List.mem_of_mem_drop hm)
  rw [hframe]
  unfold tuiRenderScreen
  simp only [historyViewHeight_clamp, hrange, drawMessages_eq]
  generalize ((visibleMessages muteJoins messages).take stop).drop start = snapshot at hroom hread ⊢
  have hcopy : (if muteJoins = false ∧ snapshot.length > historyViewHeight terminalHeight then [] else snapshot) =
      snapshot := if_neg fun h => Nat.not_le.2 h.2 hroom
  rw [hcopy]
  split
  · rename_i hmuted
    rw [visibleMessages, if_pos hmuted.1] at hread
    rw [List.filter_eq_self.2 fun m hm => (List.mem_filter.1 (hread m hm)).2]
  · rfl

theorem shows_iff {l : List Message} :
    (⟨start, layOut date height 0 none l⟩ : HistoryFrame).Shows i msg ↔
      start ≤ i ∧ rows date none (l.take (i - start + 1)) ≤ height ∧ l[i - start]? = some msg := by
  simp only [HistoryFrame.Shows, getElem?_layOut, Nat.zero_add, Option.ite_none_right_eq_some]

/-- The newest messages are shown at the end of the scroll, -/
theorem historyFrame_shows_latest (hheight : 2 ≤ height) (hi : visible[i]? = some msg)
    (hnew : historyViewLatestStartForHeight date visible height ≤ i) :
    (historyFrame date ⟨0, true⟩ height visible).Shows i msg := by
  have hne : visible ≠ [] := by
    rintro rfl
    cases hi
  rw [historyFrame, if_pos (.inl rfl)]
  refine shows_iff.2 ⟨hnew, (rows_take_le _ _ _).trans (latestStart_rows hheight hne), ?_⟩
  rw [List.getElem?_drop, Nat.add_sub_cancel' hnew, hi]

/-- and elsewhere those up to which the rows fit. -/
theorem historyFrame_shows_iff {pos : Nat} (hpos : pos < visible.length - height) (hi : visible[i]? = some msg) :
    (historyFrame date ⟨pos, false⟩ height visible).Shows i msg ↔
      pos ≤ i ∧ renderedRowsForSlice date visible pos (i + 1) ≤ height := by
  have hend : ¬ ((⟨pos, false⟩ : HistoryView).followTail = true ∨ visible.length - height ≤ pos) := by
    rw [not_or, Nat.not_le]
    exact ⟨Bool.false_ne_true, hpos⟩
  rw [historyFrame, if_neg hend, shows_iff, renderedRows_eq]
  dsimp only
  apply and_congr_right
  intro hle
  have hslice : (visible.take (i + 1)).drop pos = (visible.drop pos).take (i - pos + 1) := by
    rw [List.drop_take, Nat.sub_add_comm hle]
  rw [hslice]
  constructor
  · rintro ⟨hrows, hget⟩
    have hlt : i - pos < height := by
      have := (List.getElem?_eq_some_iff.1 hget).1
      rw [List.length_take] at this
      omega
    rwa [List.take_take, Nat.min_eq_left (by omega)] at hrows
  · intro hrows
    have hlt : i - pos + 1 ≤ height := by
      have hlen := (length_le_rows _ _).trans hrows
      have hin := (List.getElem?_eq_some_iff.1 hi).1
      rw [List.length_take, List.length_drop] at hlen
      omega
    refine ⟨by rwa [List.take_take, Nat.min_eq_left hlt], ?_⟩
    rw [List.getElem?_take_of_lt hlt, List.getElem?_drop, Nat.add_sub_cancel' hle, hi]

/-- With one row there is room for a date alone. -/
theorem not_shows_one (view : HistoryView) : ¬ (historyFrame date view 1 visible).Shows i msg := by
  have hnone : ∀ start l, ¬ (⟨start, layOut date 1 0 none l⟩ : HistoryFrame).Shows i msg := by
    intro start l h
    cases l <;> cases h.2
  unfold historyFrame
  split
  · exact hnone _ _
  · exact hnone _ _

/-! ## What can be brought on the screen -/

/-- The view a session scrolls to from the end. -/
theorem scrolled_of_lt {messageCount viewHeight pos : Nat} (h : pos < messageCount - viewHeight) :
    HistoryView.Scrolled messageCount viewHeight ⟨pos, false⟩ := by
  refine ⟨[.toLatest, .by (pos - (messageCount - viewHeight : Nat))], ?_⟩
  simp only [exec_cons, scrollStep, Option.bind_some, exec_nil, historyViewScrollToLatest, historyViewScrollBy,
    historyViewMaxScroll]
  have hneg : ((pos : Int) - (messageCount - viewHeight : Nat)) < 0 := by omega
  have hsum : ((messageCount - viewHeight : Nat) : Int) + (pos - (messageCount - viewHeight : Nat)) = pos := by omega
  rw [decide_eq_true hneg, Bool.and_self, if_pos rfl, hsum, if_neg (by omega), if_neg (by omega)]
  rw [decide_eq_false (by omega), Int.toNat_natCast]

/-- What lies between the last view that is not the end and the newest messages fits into the former, or
nothing does. -/
def NoneMissed (date : Message → δ) (visible : List Message) (height : Nat) : Prop :=
  visible = [] ∨ 2 ≤ height ∧
    let latestStart := historyViewLatestStartForHeight date visible height
    latestStart = 0 ∨ historyViewMaxScroll visible.length height ≠ 0 ∧
      renderedRowsForSlice date visible (historyViewMaxScroll visible.length height - 1) latestStart ≤ height

/-- A message is shown at the end of the scroll, at the view it is the first of, or at the last view that is
not the end. -/
theorem shown_of_noneMissed (h : NoneMissed date visible height) (hi : visible[i]? = some msg) :
    ∃ view, HistoryView.Scrolled visible.length height view ∧ (historyFrame date view height visible).Shows i msg := by
  have hne : visible ≠ [] := by
    rintro rfl
    cases hi
  obtain ⟨hheight, hgap⟩ := h.resolve_left hne
  by_cases hnew : historyViewLatestStartForHeight date visible height ≤ i
  · exact ⟨⟨0, true⟩, .refl _, historyFrame_shows_latest hheight hi hnew⟩
  rw [Nat.not_le] at hnew
  by_cases hold : i < visible.length - height
  · have hfirst : renderedRowsForSlice date visible i (i + 1) = 2 := by
      rw [renderedRows_eq, List.drop_take, Nat.add_sub_cancel_left, List.take_one, List.head?_drop, hi]
      rfl
    exact ⟨⟨i, false⟩, scrolled_of_lt hold,
      (historyFrame_shows_iff hold hi).2 ⟨Nat.le_refl i, hfirst.trans_le hheight⟩⟩
  · obtain ⟨hscroll, hrows⟩ := hgap.resolve_left (Nat.ne_zero_of_lt hnew)
    rw [historyViewMaxScroll] at hscroll hrows
    have hpos : visible.length - height - 1 < visible.length - height := by omega
    refine ⟨⟨visible.length - height - 1, false⟩, scrolled_of_lt hpos,
      (historyFrame_shows_iff hpos hi).2 ⟨by omega, le_trans ?_ hrows⟩⟩
    -- The rows up to the message are some of those up to the newest messages.
    rw [renderedRows_eq, renderedRows_eq, List.drop_take, List.drop_take]
    rw [← Nat.min_eq_left (Nat.sub_le_sub_right (Nat.succ_le_of_lt hnew) _), ← List.take_take]
    exact rows_take_le _ _ _

/-- A message in front of the newest ones is shown at a view that is not the end, if anywhere, and then at the
last of these. -/
theorem rows_of_shown {view : HistoryView} (hi : visible[i]? = some msg)
    (hold : i < historyViewLatestStartForHeight date visible height)
    (h : (historyFrame date view height visible).Shows i msg) :
    visible.length - height ≠ 0 ∧ renderedRowsForSlice date visible (visible.length - height - 1) (i + 1) ≤ height := by
  by_cases hend : view.followTail = true ∨ visible.length - height ≤ view.scrollPos
  · rw [historyFrame, if_pos hend] at h
    exact absurd h.1 (Nat.not_le.2 hold)
  · rw [not_or, Bool.not_eq_true, Nat.not_le] at hend
    obtain ⟨pos, follow⟩ := view
    obtain ⟨rfl, hpos⟩ := hend
    obtain ⟨-, hrows⟩ := (historyFrame_shows_iff hpos hi).1 h
    refine ⟨Nat.ne_zero_of_lt hpos, le_trans ?_ hrows⟩
    have hdrop : visible.length - height - 1 = pos + (visible.length - height - 1 - pos) := by
      have : pos < visible.length - height := hpos
      omega
    rw [renderedRows_eq, renderedRows_eq, hdrop, ← List.drop_drop]
    exact rows_drop_le _ _

theorem noneMissed_of_shown (hone : 1 ≤ height)
    (h : ∀ i msg, visible[i]? = some msg →
      ∃ view, HistoryView.Scrolled visible.length height view ∧ (historyFrame date view height visible).Shows i msg) :
    NoneMissed date visible height := by
  rcases eq_or_ne visible [] with hnil | hne
  · exact .inl hnil
  have hheight : 2 ≤ height := by
    by_contra hlow
    obtain rfl : height = 1 := by omega
    obtain ⟨msg, rest, rfl⟩ := List.exists_cons_of_ne_nil hne
    obtain ⟨view, -, hshown⟩ := h 0 msg rfl
    exact not_shows_one view hshown
  refine .inr ⟨hheight, or_iff_not_imp_left.2 fun hzero => ?_⟩
  -- The message in front of the newest ones is the one to look for.
  have hlt := (latestStart_cases date height hne).1
  have hlast : visible[historyViewLatestStartForHeight date visible height - 1]? =
      some visible[historyViewLatestStartForHeight date visible height - 1] :=
    List.getElem?_eq_getElem (by omega)
  obtain ⟨view, -, hshown⟩ := h _ _ hlast
  have hrows := rows_of_shown hlast (Nat.sub_lt (Nat.pos_of_ne_zero hzero) Nat.one_pos) hshown
  rwa [Nat.sub_add_cancel (Nat.pos_of_ne_zero hzero)] at hrows

end Frame

/-- Every message a session reads can be brought on its screen if and only if none is missed. -/
theorem history_shown_iff (date : Message → δ) (muteJoins : Bool) (terminalHeight : Nat) (messages : List Message) :
    (∀ i msg, (visibleMessages muteJoins messages)[i]? = some msg →
      ∃ view, HistoryView.Scrolled (visibleMessages muteJoins messages).length (historyViewHeight terminalHeight) view ∧
        (tuiRenderScreen date true muteJoins view terminalHeight messages).Shows i msg) ↔
    NoneMissed date (visibleMessages muteJoins messages) (historyViewHeight terminalHeight) := by
  simp only [tuiRenderScreen_eq]
  constructor
  · intro h
    exact noneMissed_of_shown (one_le_historyViewHeight terminalHeight) h
  · intro h i msg hi
    exact shown_of_noneMissed h hi

/-- The day of a message in the time zone UTC. -/
def utcDay (msg : Message) : Int := msg.timestamp / 86400

/-- Ten messages on each of two days. -/
def twoDays : List Message :=
  (List.range 20).map fun n => ⟨86400 * (n / 10 : Nat), CBuf.copy _ (lit "ann"), CBuf.copy _ (lit "hi")⟩

/-- A terminal of 24 rows has no view of the oldest of them. -/
theorem history_missed_oldest :
    ¬ ∀ (date : Message → Int) (width height : Int) (messages : List Message) (i : Nat) (msg : Message),
      messages[i]? = some msg →
      ∃ view, HistoryView.Scrolled messages.length (historyViewHeight (sanitizeTerminalSize width height).2.toNat)
          view ∧
        (tuiRenderScreen date true false view (sanitizeTerminalSize width height).2.toNat messages).Shows i msg := by
  intro h
  have hall := h utcDay 80 24 twoDays
  simp only [tuiRenderScreen_eq] at hall
  have hnone := noneMissed_of_shown (one_le_historyViewHeight _) hall
  rcases hnone with hnil | ⟨-, hzero | ⟨hscroll, -⟩⟩
  · exact absurd hnil (by decide)
  · exact absurd hzero (by decide +kernel)
  · exact absurd rfl hscroll

end Tnt
