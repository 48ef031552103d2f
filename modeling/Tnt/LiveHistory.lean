import Mathlib.Order.Bounds.Basic
import Tnt.Board
import Tnt.History
/-!
# The screen while messages arrive (`tui.c`, `tui_status.c`, `chat_room.c`)

`tui_render_screen` takes the lock of the room twice: it counts the messages first and copies them later, and
messages may arrive in between. `scroll_pos` counts from the oldest message that the room still has, and the
status line tells the places of the messages that were copied, whether the dates have left room for them or not.
-/
open BaseLib

namespace Tnt

variable {δ : Type*} [DecidableEq δ]

/-! ## The newest messages -/

section Latest
variable {date : Message → δ} {messages : List Message} {height : Nat}

/-- The loop stops in front of what does not fit. -/
theorem latestStartLoop_least {n start : Nat} (hn : n ≤ start)
    (hbelow : ∀ s < start, n ≤ s → height < rows date none (messages.drop s)) :
    ∀ s < latestStartLoop date messages height n start, height < rows date none (messages.drop s) := by
  induction n generalizing start with
  | zero => exact fun s hs => hbelow s hs (Nat.zero_le s)
  | succ n ih =>
    rw [latestStartLoop, renderedRows_length]
    split
    · rename_i hfull
      intro s hs
      rcases Nat.lt_or_ge n s with hlt | hge
      · exact hbelow s hs hlt
      · -- More messages take no fewer rows.
        have hmore : rows date none ((messages.drop s).drop (n - s)) ≤ rows date none (messages.drop s) :=
          rows_drop_le _ _
        rw [List.drop_drop, Nat.add_sub_cancel' hge] at hmore
        omega
    · exact ih (Nat.le_refl n) fun s hs hle => absurd hs (Nat.not_lt.2 hle)

/-- Nothing that starts in front of the newest messages fits. -/
theorem lt_rows_of_lt_latestStart {s : Nat} (hs : s < historyViewLatestStartForHeight date messages height) :
    height < rows date none (messages.drop s) := by
  refine latestStartLoop_least (Nat.le_refl messages.length) (fun s hs hle => absurd hs (Nat.not_lt.2 hle)) s ?_
  unfold historyViewLatestStartForHeight at hs
  dsimp only at hs
  split at hs
  · rename_i hloop
    rw [hloop.1]
    exact Nat.lt_of_lt_of_le hs (Nat.sub_le _ _)
  · exact hs

/-- The newest messages are drawn in full if and only if there is room for a date and a message. -/
theorem layOut_latest_iff (date : Message → δ) (height : Nat) (hne : messages ≠ []) :
    layOut date height 0 none (messages.drop (historyViewLatestStartForHeight date messages height)) =
        messages.drop (historyViewLatestStartForHeight date messages height) ↔ 2 ≤ height := by
  have hslice : messages.drop (historyViewLatestStartForHeight date messages height) ≠ [] := by
    rw [ne_eq, List.drop_eq_nil_iff, Nat.not_le]
    exact (latestStart_cases date height hne).1
  constructor
  · intro hdrawn
    have hroom : layOut date height 0 none (messages.drop (historyViewLatestStartForHeight date messages height)) ≠ [] ↔
        0 + 2 ≤ height := layOut_ne_nil_iff hslice
    rw [hdrawn, Nat.zero_add] at hroom
    exact hroom.1 hslice
  · intro hheight
    rw [layOut_eq_self_iff hslice, Nat.zero_add]
    exact latestStart_rows hheight hne

/-- The slice for the latest view is the longest that fits and is drawn in full, if there is room for a date and a
message. -/
theorem latestView_iff (date : Message → δ) (messages : List Message) (hne : messages ≠ []) (height : Nat) :
    (IsLeast {start | start ≤ messages.length ∧ rows date none (messages.drop start) ≤ height}
          (historyViewLatestStartForHeight date messages height) ∧
        drawMessages date height 0 none (messages.drop (historyViewLatestStartForHeight date messages height)) =
          messages.drop (historyViewLatestStartForHeight date messages height) ∧
        messages.getLast hne ∈
          drawMessages date height 0 none (messages.drop (historyViewLatestStartForHeight date messages height))) ↔
      2 ≤ height := by
  have hlt := (latestStart_cases date height hne).1
  simp only [drawMessages_eq]
  constructor
  · rintro ⟨-, hdrawn, -⟩
    exact (layOut_latest_iff date height hne).1 hdrawn
  · intro hheight
    have hdrawn := (layOut_latest_iff date height hne).2 hheight
    refine ⟨⟨⟨hlt.le, latestStart_rows hheight hne⟩, fun s hs => ?_⟩, hdrawn, ?_⟩
    · rw [← Nat.not_lt]
      intro hbefore
      exact absurd hs.2 (Nat.not_le.2 (lt_rows_of_lt_latestStart hbefore))
    · have hslice : messages.drop (historyViewLatestStartForHeight date messages height) ≠ [] := by
        rw [ne_eq, List.drop_eq_nil_iff, Nat.not_le]
        exact hlt
      rw [hdrawn, ← List.getLast_drop hslice]
      exact List.getLast_mem hslice

theorem latestView_iff_twoDays :
    (twoDays.getLast (by decide)) ∈
      drawMessages utcDay 21 0 none (twoDays.drop (historyViewLatestStartForHeight utcDay twoDays 21)) :=
  ((latestView_iff utcDay twoDays (by decide) 21).2 (by decide)).2.2

/-- With one row, the date takes it. -/
theorem latestView_without_message : ¬ ∀ (date : Message → Int) (messages : List Message) (hne : messages ≠ [])
    (height : Nat), 1 ≤ height →
    IsLeast {start | start ≤ messages.length ∧ rows date none (messages.drop start) ≤ height}
        (historyViewLatestStartForHeight date messages height) ∧
      drawMessages date height 0 none (messages.drop (historyViewLatestStartForHeight date messages height)) =
        messages.drop (historyViewLatestStartForHeight date messages height) ∧
      messages.getLast hne ∈
        drawMessages date height 0 none (messages.drop (historyViewLatestStartForHeight date messages height)) := by
  intro h
  have hone := (h utcDay [zeroMessage] (by decide) 1 (by decide)).2.2
  exact absurd hone (by decide)

end Latest

/-! ## `tui_render_screen` between two looks at the room -/

/-- What `tui_render_screen` shows of the history, with `msg_count`, `start` and `end` as it passes them on to
`tui_status_append`. -/
structure LiveFrame where
  msgCount : Nat
  start : Nat
  stop : Nat
  drawn : List Message
  deriving DecidableEq

/-- The copy under the lock: the places that are copied of the messages then in the room, `none` where these are
none or too many. -/
def secondPass (date : Message → δ) (anchor : Bool) (start stop msgHeight : Nat) (second : List Message) :
    Option (Nat × Nat) :=
  let actualCount := second.length
  let (actualStart, actualEnd) :=
    if anchor then (historyViewLatestStartForHeight date second msgHeight, actualCount)
    else
      let actualEnd := if stop ≤ actualCount then stop else actualCount
      (if start < actualEnd then start else actualEnd, actualEnd)
  let actualSnapshot := actualEnd - actualStart
  if actualSnapshot > 0 ∧ actualSnapshot ≤ msgHeight then some (actualStart, actualEnd) else none

/-- The places from `start` on that fit, before the dates are counted. -/
def scrollWindow (normalMode : Bool) (view : HistoryView) (msgHeight msgCount : Nat) : Nat × Nat :=
  let latestScrollStart := historyViewMaxScroll msgCount msgHeight
  let start :=
    if normalMode then if view.scrollPos > latestScrollStart then latestScrollStart else view.scrollPos
    else latestScrollStart
  (start, if start + msgHeight > msgCount then msgCount else start + msgHeight)

/-- What `tui_render_screen` copies of the room, and how many messages it says there are. -/
structure Snapshot where
  msgCount : Nat
  start : Nat
  stop : Nat
  messages : List Message

/-- `tui_render_screen` up to where it draws: the room holds `first` when it is looked at the first time and `second`
the next time. -/
def tuiSnapshot (date : Message → δ) (normalMode muteJoins : Bool) (view : HistoryView) (msgHeight : Nat)
    (first second : List Message) : Snapshot :=
  let withoutJoins (messages : List Message) := messages.filter (!systemMessageIsJoinLeave ·)
  if muteJoins ∧ first.length > 0 then
    let visible := withoutJoins second
    let anchor := anchorLatest normalMode view visible.length msgHeight
    let (start, stop) := snapshotRange date normalMode view msgHeight visible
    let snapshot := (visible.take stop).drop start
    ⟨visible.length, start, stop, if anchor then snapshot else withoutJoins snapshot⟩
  else
    let anchor := anchorLatest normalMode view first.length msgHeight
    let (start, stop) := scrollWindow normalMode view msgHeight first.length
    if stop - start > 0 then
      match secondPass date anchor start stop msgHeight second with
      | some (start, stop) =>
        let snapshot := (second.take stop).drop start
        ⟨first.length, start, stop, if muteJoins && !anchor then withoutJoins snapshot else snapshot⟩
      | none => ⟨first.length, start, stop, []⟩
    else ⟨first.length, start, stop, []⟩

/-- `tui_render_screen`, as far as it concerns the messages. -/
def tuiRenderLive (date : Message → δ) (normalMode muteJoins : Bool) (view : HistoryView) (terminalHeight : Nat)
    (first second : List Message) : LiveFrame :=
  let renderHeight := if terminalHeight < 4 then 4 else terminalHeight
  let msgHeight := historyViewHeight renderHeight
  let s := tuiSnapshot date normalMode muteJoins view msgHeight first second
  ⟨s.msgCount, s.start, s.stop, drawMessages date msgHeight 0 none s.messages⟩

/-- What NORMAL mode says of a frame in the status line: the range of the messages, how many there are, and how many
are unseen. -/
structure StatusNumbers where
  rangeStart : Nat
  rangeEnd : Nat
  total : Nat
  unseen : Int
  deriving DecidableEq

/-- `tui_status_append` in NORMAL mode. -/
def LiveFrame.status (f : LiveFrame) : StatusNumbers where
  total := f.msgCount
  rangeStart := if f.msgCount = 0 then 0 else f.start + 1
  rangeEnd := if f.msgCount = 0 then 0 else f.stop
  unseen := f.msgCount - f.stop

/-! ## The room while messages arrive -/

/-- The messages that the room no longer has behind the broadcasts of `msgs`. -/
def pushedOut (room msgs : List Message) : List Message := (room ++ msgs).take ((room ++ msgs).length - MAX_MESSAGES)

section Broadcasts
variable {room : List Message}

theorem foldl_roomAddMessage_eq (hroom : room.length ≤ MAX_MESSAGES) (msgs : List Message) :
    msgs.foldl roomAddMessage room = (room ++ msgs).rtake MAX_MESSAGES := by
  induction msgs using List.reverseRecOn with
  | nil =>
    rw [List.append_nil, List.foldl_nil, List.rtake, Nat.sub_eq_zero_of_le hroom]
    rfl
  | append_singleton msgs msg ih =>
    rw [List.foldl_append, ih, List.foldl_cons, List.foldl_nil, roomAddMessage_rtake, List.append_assoc]

/-- The room keeps the newest messages, in their order. -/
theorem pushedOut_append (hroom : room.length ≤ MAX_MESSAGES) (msgs : List Message) :
    pushedOut room msgs ++ msgs.foldl roomAddMessage room = room ++ msgs := by
  rw [foldl_roomAddMessage_eq hroom, pushedOut, List.rtake, List.take_append_drop]

theorem length_foldl_roomAddMessage (hroom : room.length ≤ MAX_MESSAGES) (msgs : List Message) :
    (msgs.foldl roomAddMessage room).length = min (room.length + msgs.length) MAX_MESSAGES := by
  rw [foldl_roomAddMessage_eq hroom, List.rtake, List.length_drop, List.length_append]
  omega

end Broadcasts

/-! ## What a frame shows -/

section Frame
variable {date : Message → δ} {muteJoins : Bool} {view : HistoryView} {height terminalHeight : Nat}
  {first second visible : List Message}

/-- A frame of NORMAL mode, where `counted` messages were counted and `visible` are those that were there to copy. -/
def liveFrame (date : Message → δ) (view : HistoryView) (height counted : Nat) (visible : List Message) : LiveFrame :=
  if view.followTail = true ∨ counted - height ≤ view.scrollPos then
    let start := historyViewLatestStartForHeight date visible height
    ⟨counted, start, visible.length, layOut date height 0 none (visible.drop start)⟩
  else
    ⟨counted, view.scrollPos, view.scrollPos + height,
      layOut date height 0 none ((visible.drop view.scrollPos).take height)⟩

theorem anchorLatest_iff {n : Nat} :
    anchorLatest true view n height = true ↔ view.followTail = true ∨ n - height ≤ view.scrollPos := by
  simp [anchorLatest, historyViewMaxScroll]

theorem scrollWindow_eq (view : HistoryView) (height n : Nat) : scrollWindow true view height n =
    (min view.scrollPos (n - height), min (min view.scrollPos (n - height) + height) n) := by
  rw [← show historyViewMaxScroll n height = n - height from rfl, scrollWindow]
  generalize historyViewMaxScroll n height = latest
  have hstart : (if view.scrollPos > latest then latest else view.scrollPos) = min view.scrollPos latest := by
    split <;> omega
  simp only [if_true, hstart, Prod.mk.injEq, true_and]
  split <;> omega

/-- Where all is counted under the lock of the copy, -/
theorem tuiRenderLive_muted (date : Message → δ) (view : HistoryView) (terminalHeight : Nat) (hfirst : first ≠ [])
    (second : List Message) :
    tuiRenderLive date true true view terminalHeight first second =
      liveFrame date view (historyViewHeight terminalHeight) (visibleMessages true second).length
        (visibleMessages true second) := by
  have hvisible : second.filter (!systemMessageIsJoinLeave ·) = visibleMessages true second := rfl
  have hread : ∀ m ∈ visibleMessages true second, (!systemMessageIsJoinLeave m) = true := fun m hm =>
    (List.mem_filter.1 hm).2
  unfold tuiRenderLive tuiSnapshot liveFrame
  simp only [historyViewHeight_clamp, List.length_pos_of_ne_nil hfirst, hvisible, and_self, if_true, drawMessages_eq]
  generalize visibleMessages true second = visible at hread
  generalize historyViewHeight terminalHeight = height
  by_cases hend : view.followTail = true ∨ visible.length - height ≤ view.scrollPos
  · have hanchor := anchorLatest_iff.2 hend
    simp only [snapshotRange, hanchor, if_true, if_pos hend, List.take_length]
  · have hanchor : anchorLatest true view visible.length height = false :=
      Bool.eq_false_iff.2 (mt anchorLatest_iff.1 hend)
    have hpos : view.scrollPos < visible.length - height := Nat.not_le.1 fun h => hend (.inr h)
    have hstart : ¬ view.scrollPos > historyViewMaxScroll visible.length height := Nat.not_lt.2 (Nat.le_of_lt hpos)
    have hstop : ¬ view.scrollPos + height > visible.length := by omega
    simp only [snapshotRange, hanchor, if_neg hstart, if_neg hstop, if_neg hend, Bool.false_eq_true, if_false, if_true]
    rw [List.drop_take, Nat.add_sub_cancel_left, List.filter_eq_self.2]
    exact fun m hm => hread m (List.mem_of_mem_drop (List.mem_of_mem_take hm))

/-- and where the messages are counted first, and copied later. -/
theorem tuiRenderLive_unmuted (date : Message → δ) (view : HistoryView) (terminalHeight : Nat) (hfirst : first ≠ [])
    (hle : first.length ≤ second.length) :
    tuiRenderLive date true false view terminalHeight first second =
      liveFrame date view (historyViewHeight terminalHeight) first.length second := by
  have hpos := List.length_pos_of_ne_nil hfirst
  have hheight := one_le_historyViewHeight terminalHeight
  unfold tuiRenderLive tuiSnapshot liveFrame
  simp only [historyViewHeight_clamp, Bool.false_eq_true, false_and, if_false, drawMessages_eq, Bool.false_and]
  generalize historyViewHeight terminalHeight = height at hheight
  have hsecond : second ≠ [] := List.ne_nil_of_length_pos (by omega)
  by_cases hend : view.followTail = true ∨ first.length - height ≤ view.scrollPos
  · have hanchor := anchorLatest_iff.2 hend
    have hlt := (latestStart_cases date height hsecond).1
    have hroom : (second.drop (historyViewLatestStartForHeight date second height)).length ≤ height :=
      latestStart_length hheight second
    rw [List.length_drop] at hroom
    have hcopy : secondPass date true (scrollWindow true view height first.length).1
        (scrollWindow true view height first.length).2 height second =
        some (historyViewLatestStartForHeight date second height, second.length) :=
      if_pos ⟨Nat.sub_pos_of_lt hlt, hroom⟩
    have hsome :
        (scrollWindow true view height first.length).2 - (scrollWindow true view height first.length).1 > 0 := by
      rw [scrollWindow_eq]
      dsimp only
      omega
    simp only [hanchor, hcopy, if_pos hsome, if_pos hend, List.take_length]
  · have hanchor : anchorLatest true view first.length height = false :=
      Bool.eq_false_iff.2 (mt anchorLatest_iff.1 hend)
    have hlow : view.scrollPos < first.length - height := Nat.not_le.1 fun h => hend (.inr h)
    have hwindow : scrollWindow true view height first.length = (view.scrollPos, view.scrollPos + height) := by
      rw [scrollWindow_eq, Prod.mk.injEq]
      omega
    have hcopy : secondPass date false view.scrollPos (view.scrollPos + height) height second =
        some (view.scrollPos, view.scrollPos + height) := by
      have hstop : view.scrollPos + height ≤ second.length := by omega
      have hstart : view.scrollPos < view.scrollPos + height := by omega
      simp only [secondPass, Bool.false_eq_true, if_false, if_pos hstop, if_pos hstart]
      exact if_pos (by omega)
    simp only [hanchor, hwindow, hcopy, if_neg hend]
    rw [if_pos (by omega), List.drop_take, Nat.add_sub_cancel_left]

/-- Nothing is copied from a room without messages. -/
theorem tuiRenderLive_nil (date : Message → δ) (muteJoins : Bool) (view : HistoryView) (terminalHeight : Nat)
    (second : List Message) : tuiRenderLive date true muteJoins view terminalHeight [] second = ⟨0, 0, 0, []⟩ := by
  have hwindow (height : Nat) : scrollWindow true view height 0 = (0, 0) := by
    rw [scrollWindow_eq]
    simp
  unfold tuiRenderLive tuiSnapshot
  simp only [List.length_nil, hwindow, Nat.lt_irrefl, gt_iff_lt, and_false, if_false, Nat.sub_self]
  rfl

/-- A frame of NORMAL mode. -/
theorem tuiRenderLive_eq (date : Message → δ) (muteJoins : Bool) (view : HistoryView) (terminalHeight : Nat)
    (hfirst : first ≠ []) (hle : first.length ≤ second.length) :
    tuiRenderLive date true muteJoins view terminalHeight first second =
      liveFrame date view (historyViewHeight terminalHeight)
        (if muteJoins then (visibleMessages true second).length else first.length)
        (visibleMessages muteJoins second) := by
  cases muteJoins with
  | true => exact tuiRenderLive_muted date view terminalHeight hfirst second
  | false => exact tuiRenderLive_unmuted date view terminalHeight hfirst hle

/-- It starts and draws what it does while no messages arrive. -/
theorem liveFrame_historyFrame (date : Message → δ) (view : HistoryView) (height : Nat) (visible : List Message) :
    historyFrame date view height visible =
      ⟨(liveFrame date view height visible.length visible).start,
        (liveFrame date view height visible.length visible).drawn⟩ := by
  unfold historyFrame liveFrame
  split <;> rfl

/-- `tuiRenderScreen` is `tuiRenderLive` in a room where nothing arrives between the looks. -/
theorem tuiRenderLive_still (date : Message → δ) (muteJoins : Bool) (view : HistoryView) (terminalHeight : Nat)
    (messages : List Message) :
    tuiRenderScreen date true muteJoins view terminalHeight messages =
      ⟨(tuiRenderLive date true muteJoins view terminalHeight messages messages).start,
        (tuiRenderLive date true muteJoins view terminalHeight messages messages).drawn⟩ := by
  rw [tuiRenderScreen_eq]
  rcases eq_or_ne messages [] with rfl | hne
  · have hvisible : visibleMessages muteJoins [] = [] := by cases muteJoins <;> rfl
    rw [tuiRenderLive_nil, hvisible, historyFrame, if_pos (.inr (by simp))]
    rfl
  · rw [tuiRenderLive_eq date muteJoins view terminalHeight hne (Nat.le_refl _)]
    cases muteJoins <;> exact liveFrame_historyFrame ..

/-! ## What the status line says -/

/-- The messages drawn are the ones of the range, out of as many as there are, and the unseen ones are those behind
the last one drawn. -/
structure LiveFrame.Truthful (f : LiveFrame) (visible : List Message) : Prop where
  range : f.drawn = (visible.take f.status.rangeEnd).drop (f.status.rangeStart - 1)
  total : f.status.total = visible.length
  unseen : f.status.unseen = (visible.drop (f.status.rangeStart - 1 + f.drawn.length)).length

theorem truthful_nil : (⟨0, 0, 0, []⟩ : LiveFrame).Truthful [] := ⟨rfl, rfl, rfl⟩

/-- It is right about the newest messages, where all were counted. Elsewhere the dates leave no room for some of the
range. -/
theorem liveFrame_truthful_iff (hheight : 1 ≤ height) {counted : Nat} (hle : counted ≤ visible.length)
    (hcounted : counted ≠ 0) : (liveFrame date view height counted visible).Truthful visible ↔
      2 ≤ height ∧ (view.followTail = true ∨ visible.length - height ≤ view.scrollPos) ∧ counted = visible.length := by
  have hne : visible ≠ [] := List.ne_nil_of_length_pos (by omega)
  have hlt := (latestStart_cases date height hne).1
  constructor
  · intro h
    have htotal : counted = visible.length := by
      have htotal := h.total
      unfold liveFrame at htotal
      split at htotal <;> exact htotal
    have hrange := h.range
    rw [htotal] at hcounted hrange
    unfold liveFrame at hrange
    by_cases hend : view.followTail = true ∨ visible.length - height ≤ view.scrollPos
    · refine ⟨?_, hend, htotal⟩
      simp only [if_pos hend, LiveFrame.status, if_neg hcounted, List.take_length, Nat.add_sub_cancel] at hrange
      exact (layOut_latest_iff date height hne).1 hrange
    · -- As many messages as rows, and a date.
      exfalso
      simp only [if_neg hend, LiveFrame.status, if_neg hcounted, Nat.add_sub_cancel] at hrange
      have hpos : view.scrollPos < visible.length - height := Nat.not_le.1 fun h => hend (.inr h)
      have hlen : ((visible.drop view.scrollPos).take height).length = height := by
        rw [List.length_take, List.length_drop]
        omega
      have hslice : (visible.drop view.scrollPos).take height ≠ [] := List.ne_nil_of_length_pos (by omega)
      rw [List.drop_take, Nat.add_sub_cancel_left, layOut_eq_self_iff hslice] at hrange
      have hmore : ((visible.drop view.scrollPos).take height).length <
          rows date none ((visible.drop view.scrollPos).take height) := length_lt_rows hslice
      omega
  · rintro ⟨htwo, hend, rfl⟩
    have hdrawn := (layOut_latest_iff date height hne).2 htwo
    rw [liveFrame, if_pos hend]
    constructor
    · simp only [LiveFrame.status, if_neg hcounted, List.take_length, Nat.add_sub_cancel, hdrawn]
    · rfl
    · simp only [LiveFrame.status, if_neg hcounted, Nat.add_sub_cancel, hdrawn, List.length_drop]
      omega

end Frame

/-- The visible history that a frame is taken from. -/
def frameSource (muteJoins : Bool) (first second : List Message) : List Message :=
  if first = [] then [] else visibleMessages muteJoins second

/-- The status line tells the truth of an empty history, and else of the newest messages only: if there is room for
one below its date, and the messages that were counted are those that were copied. -/
theorem status_truthful_iff (date : Message → δ) (muteJoins : Bool) (view : HistoryView) (terminalHeight : Nat)
    (first : List Message) (hfirst : first.length ≤ MAX_MESSAGES) (msgs : List Message) :
    (tuiRenderLive date true muteJoins view terminalHeight first (msgs.foldl roomAddMessage first)).Truthful
        (frameSource muteJoins first (msgs.foldl roomAddMessage first)) ↔
      frameSource muteJoins first (msgs.foldl roomAddMessage first) = [] ∨
        2 ≤ historyViewHeight terminalHeight ∧
          (view.followTail = true ∨
            historyViewMaxScroll (frameSource muteJoins first (msgs.foldl roomAddMessage first)).length
              (historyViewHeight terminalHeight) ≤ view.scrollPos) ∧
          (muteJoins = true ∨ (msgs.foldl roomAddMessage first).length = first.length) := by
  have hle : first.length ≤ (msgs.foldl roomAddMessage first).length := by
    rw [length_foldl_roomAddMessage hfirst]
    omega
  generalize msgs.foldl roomAddMessage first = second at hle
  rcases eq_or_ne first [] with rfl | hne
  · rw [tuiRenderLive_nil, frameSource, if_pos rfl]
    exact iff_of_true truthful_nil (.inl rfl)
  have hheight := one_le_historyViewHeight terminalHeight
  rw [tuiRenderLive_eq date muteJoins view terminalHeight hne hle, frameSource, if_neg hne, historyViewMaxScroll]
  cases muteJoins with
  | false =>
    have hsecond : second ≠ [] := by
      rintro rfl
      exact hne (List.eq_nil_of_length_eq_zero (Nat.le_zero.1 hle))
    have hvisible : visibleMessages false second = second := rfl
    rw [hvisible, or_iff_right hsecond, if_neg Bool.false_ne_true,
      liveFrame_truthful_iff hheight hle (List.length_pos_of_ne_nil hne).ne', or_iff_right Bool.false_ne_true,
      eq_comm (a := first.length)]
  | true =>
    rw [if_pos rfl]
    rcases eq_or_ne (visibleMessages true second) [] with hnone | hsome
    · rw [hnone, liveFrame, if_pos (.inr (by simp))]
      exact iff_of_true truthful_nil (.inl rfl)
    · rw [or_iff_right hsome, liveFrame_truthful_iff hheight (Nat.le_refl _) (List.length_pos_of_ne_nil hsome).ne']
      simp

theorem status_truthful_iff_twoDays :
    (tuiRenderLive utcDay true false ⟨0, true⟩ 24 twoDays twoDays).Truthful twoDays := by
  exact (status_truthful_iff utcDay false ⟨0, true⟩ 24 twoDays (by decide) []).2
    (.inr ⟨by decide, .inl rfl, .inr rfl⟩)

/-- Of three messages of one day, the first view of a terminal of five rows shows one and says that it shows two. -/
theorem status_counts_hidden_messages :
    ¬ ∀ (date : Message → Int) (muteJoins : Bool) (view : HistoryView) (terminalHeight : Nat) (first : List Message),
      first.length ≤ MAX_MESSAGES → ∀ msgs : List Message,
        (tuiRenderLive date true muteJoins view terminalHeight first (msgs.foldl roomAddMessage first)).Truthful
          (frameSource muteJoins first (msgs.foldl roomAddMessage first)) := by
  intro h
  have hrange := (h utcDay false ⟨0, false⟩ 5 (twoDays.take 3) (by decide) []).range
  exact absurd hrange (by decide)

/-! ## Browsing while messages arrive -/

/-- The first message on the screen, with its place among all the visible messages there were, when `pushed` of them
are no longer in the room. -/
def LiveFrame.firstShown (f : LiveFrame) (pushed : Nat) : Option (Nat × Message) :=
  f.drawn.head?.map fun msg => (pushed + f.start, msg)

theorem visibleMessages_append (muteJoins : Bool) (a b : List Message) :
    visibleMessages muteJoins (a ++ b) = visibleMessages muteJoins a ++ visibleMessages muteJoins b := by
  cases muteJoins with
  | false => rfl
  | true => exact List.filter_append ..

section Browsing
variable {date : Message → δ} {view : HistoryView} {height counted pushed : Nat} {visible : List Message}

/-- While the view is not at the end, the first message shown is the one at `scroll_pos`. -/
theorem firstShown_browsing (hheight : 2 ≤ height) (hfollow : view.followTail = false)
    (hpos : view.scrollPos < counted - height) : (liveFrame date view height counted visible).firstShown pushed =
      visible[view.scrollPos]?.map fun msg => (pushed + view.scrollPos, msg) := by
  have hend : ¬ (view.followTail = true ∨ counted - height ≤ view.scrollPos) := by
    rw [hfollow, or_iff_right Bool.false_ne_true, Nat.not_le]
    exact hpos
  have hfirst : ((visible.drop view.scrollPos).take height).head? = visible[view.scrollPos]? := by
    rw [List.head?_take, if_neg (by omega), List.head?_drop]
  rw [liveFrame, if_neg hend, LiveFrame.firstShown, head?_layOut (by omega), hfirst]

/-- What is on the screen has a date above it. -/
theorem two_le_of_drawn (h : (liveFrame date view height counted visible).drawn ≠ []) : 2 ≤ height := by
  have hroom {l : List Message} (h : layOut date height 0 none l ≠ []) : 2 ≤ height := by
    have hl : l ≠ [] := by
      rintro rfl
      exact h rfl
    have := (layOut_ne_nil_iff hl).1 h
    omega
  unfold liveFrame at h
  split at h <;> exact hroom h

/-- At the end, fewer messages than rows stand behind the first one shown. -/
theorem firstShown_latest (hheight : 2 ≤ height) (hend : view.followTail = true ∨ counted - height ≤ view.scrollPos)
    {i : Nat} {msg : Message} (h : (liveFrame date view height counted visible).firstShown pushed = some (i, msg)) :
    pushed + visible.length < i + height := by
  rw [liveFrame, if_pos hend, LiveFrame.firstShown, head?_layOut (by omega), Option.map_eq_some_iff] at h
  obtain ⟨m, hm, hi⟩ := h
  rw [Prod.mk.injEq] at hi
  dsimp only at hm hi
  have hslice : visible.drop (historyViewLatestStartForHeight date visible height) ≠ [] := by
    intro hnil
    rw [hnil] at hm
    cases hm
  have hne : visible ≠ [] := by
    rintro rfl
    exact hslice List.drop_nil
  have hrows : rows date none (visible.drop (historyViewLatestStartForHeight date visible height)) ≤ height :=
    latestStart_rows hheight hne
  have hlen := (length_lt_rows hslice).trans_le hrows
  rw [List.length_drop] at hlen
  omega

/-- In a history that `gone` has been pushed out of, the same message is shown first if and only if that is nothing. -/
theorem firstShown_stays_iff {pos : Nat} {visible' gone arrived : List Message} (hheight : 2 ≤ height)
    (hsplit : gone ++ visible' = visible ++ arrived) (hpos : pos < visible.length - height)
    (hcounted : counted - height ≤ pos → counted = visible'.length) :
    (liveFrame date ⟨pos, false⟩ height counted visible').firstShown gone.length =
      (liveFrame date ⟨pos, false⟩ height visible.length visible).firstShown 0 ↔ gone = [] := by
  have hlt : pos < visible.length := by omega
  have hlen := congrArg List.length hsplit
  rw [List.length_append, List.length_append] at hlen
  have hearlier : (liveFrame date ⟨pos, false⟩ height visible.length visible).firstShown 0 =
      some (pos, visible[pos]) := by
    rw [firstShown_browsing hheight rfl hpos, List.getElem?_eq_getElem hlt, Option.map_some, Nat.zero_add]
  rw [hearlier]
  rcases Nat.lt_or_ge pos (counted - height) with hbrowsing | hend
  · rw [firstShown_browsing hheight rfl hbrowsing]
    constructor
    · intro h
      obtain ⟨msg, -, hplace⟩ := Option.map_eq_some_iff.1 h
      have hplace : gone.length + pos = pos := (Prod.mk.inj hplace).1
      exact List.eq_nil_of_length_eq_zero (by omega)
    · rintro rfl
      rw [List.nil_append] at hsplit
      rw [hsplit, List.getElem?_append_left hlt, List.getElem?_eq_getElem hlt, Option.map_some, List.length_nil,
        Nat.zero_add]
  · -- There are fewer messages than before, so that some were pushed out.
    have hfewer := hcounted hend
    constructor
    · intro h
      have hlatest := firstShown_latest hheight (.inr hend) h
      omega
    · rintro rfl
      rw [List.length_nil] at hlen
      omega

end Browsing

/-- The reader of the history sees the same message first if and only if none of the visible messages has been pushed
out of the room. -/
theorem browsing_stays_iff (date : Message → δ) (muteJoins : Bool) (pos terminalHeight : Nat) (room : List Message)
    (hroom : room.length ≤ MAX_MESSAGES)
    (hpos : pos < historyViewMaxScroll (visibleMessages muteJoins room).length (historyViewHeight terminalHeight))
    (hshown : (tuiRenderLive date true muteJoins ⟨pos, false⟩ terminalHeight room room).drawn ≠ [])
    (before during : List Message) :
    (tuiRenderLive date true muteJoins ⟨pos, false⟩ terminalHeight (before.foldl roomAddMessage room)
          ((before ++ during).foldl roomAddMessage room)).firstShown
        (visibleMessages muteJoins (pushedOut room (before ++ during))).length =
      (tuiRenderLive date true muteJoins ⟨pos, false⟩ terminalHeight room room).firstShown 0 ↔
    visibleMessages muteJoins (pushedOut room (before ++ during)) = [] := by
  have hne : room ≠ [] := by
    rintro rfl
    rw [tuiRenderLive_nil] at hshown
    exact hshown rfl
  have hone := one_le_historyViewHeight terminalHeight
  have hfirst := length_foldl_roomAddMessage hroom before
  have hsecond := length_foldl_roomAddMessage hroom (before ++ during)
  have hsplit := congrArg (visibleMessages muteJoins) (pushedOut_append hroom (before ++ during))
  rw [visibleMessages_append, visibleMessages_append] at hsplit
  have hfne : before.foldl roomAddMessage room ≠ [] :=
    List.ne_nil_of_length_pos (by have := List.length_pos_of_ne_nil hne; rw [hfirst, MAX_MESSAGES]; omega)
  rw [List.length_append] at hsecond
  rw [tuiRenderLive_eq date muteJoins _ _ hne (Nat.le_refl _)] at hshown ⊢
  rw [tuiRenderLive_eq date muteJoins _ _ hfne (by omega)]
  have hcounted : (if muteJoins then (visibleMessages true room).length else room.length) =
      (visibleMessages muteJoins room).length := by cases muteJoins <;> rfl
  rw [hcounted] at hshown ⊢
  rw [historyViewMaxScroll] at hpos
  generalize historyViewHeight terminalHeight = height at hpos hshown ⊢
  refine firstShown_stays_iff (two_le_of_drawn hshown) hsplit hpos fun hend => ?_
  cases muteJoins with
  | true => rfl
  | false =>
    -- Without a mute no message is hidden, and the room does not get smaller.
    have hall : (visibleMessages false room).length = room.length := rfl
    rw [if_neg Bool.false_ne_true] at hend
    rw [MAX_MESSAGES] at hfirst hroom
    omega

theorem browsing_stays_iff_twoDays :
    (tuiRenderLive utcDay true false ⟨1, false⟩ 12 (roomAddMessage twoDays zeroMessage)
        (roomAddMessage twoDays zeroMessage)).firstShown 0 =
      (tuiRenderLive utcDay true false ⟨1, false⟩ 12 twoDays twoDays).firstShown 0 :=
  (browsing_stays_iff utcDay false 1 12 twoDays (by decide) (by decide) (by decide) [zeroMessage] []).2
    (by decide)

/-- A room that holds as many messages as it can, one a minute. -/
def fullRoom : List Message :=
  (List.range 100).map fun n => ⟨60 * (n : Nat), CBuf.copy _ (lit "ann"), CBuf.copy _ (lit "hi")⟩

/-- With the next message in a full room, each message moves to the place of the one before it. -/
theorem browsing_moves : ¬ ∀ (date : Message → Int) (muteJoins : Bool) (pos terminalHeight : Nat) (room : List Message),
    room.length ≤ MAX_MESSAGES →
    pos < historyViewMaxScroll (visibleMessages muteJoins room).length (historyViewHeight terminalHeight) →
    (tuiRenderLive date true muteJoins ⟨pos, false⟩ terminalHeight room room).drawn ≠ [] →
    ∀ before during : List Message, (visibleMessages muteJoins (pushedOut room (before ++ during))).length ≤ pos →
      (tuiRenderLive date true muteJoins ⟨pos, false⟩ terminalHeight (before.foldl roomAddMessage room)
            ((before ++ during).foldl roomAddMessage room)).firstShown
          (visibleMessages muteJoins (pushedOut room (before ++ during))).length =
        (tuiRenderLive date true muteJoins ⟨pos, false⟩ terminalHeight room room).firstShown 0 := by
  intro h
  have hsame :=
    h utcDay false 5 24 fullRoom (by decide) (by decide) (by decide) [zeroMessage] []
    (by decide)
  exact absurd hsame (by decide)

end Tnt
