import Tnt.Lib.Versions
import Tnt.Board
/-!
# What a session has on its screen (`input.c`, `tui.c`, `chat_room.c`)

A session draws the room from a copy, and looks at `update_seq` when its poll runs out to see whether
to draw it again. `refreshStep` takes one of its critical sections, or one of another session's.

The main loop reads the number before it draws; `input_run_session` draws its first frame before. What is
published between the two is not drawn (`refresh_missed`), and nothing else is missed (`refresh_upToDate`).
-/
open BaseLib

namespace Tnt

/-- The messages of `g_room` and its `update_seq`. -/
abbrev RoomView : Type := Versioned (List Message)

/-- `room_broadcast` -/
def roomBroadcast (room : RoomView) (msg : Message) : RoomView := room.update (roomAddMessage · msg)

/-- Where the thread of a session is. -/
inductive Spot
  /-- It is in the room, and its notice is the next to be published. -/
  | joining (notice : Message)
  /-- `tui_render_screen` is called, for the first time or not, and takes the number of messages. -/
  | counting (first : Bool)
  /-- It copies them. -/
  | copying (first : Bool)
  /-- The first frame is drawn, and `seen_update_seq` is read next. -/
  | reading
  /-- `ssh_channel_poll_timeout` -/
  | waiting
  /-- The poll ran out and the number is read. -/
  | comparing (current : Nat)
  /-- A message of its own is published next, and then the screen drawn, or the output of a command. -/
  | sending (msg : Message) (output : Bool)
  | left
  deriving DecidableEq

structure Viewer where
  room : RoomView
  spot : Spot
  showHelp : Bool
  /-- `command_output` is not empty. -/
  commandOutput : Bool
  redrawPending : Bool
  /-- `seen_update_seq` -/
  seen : Nat
  /-- What the last frame of `tui_render_screen` was drawn from. -/
  frame : Option RoomView
  deriving DecidableEq

/-- What a key does to the screen. -/
inductive KeyEffect
  /-- The line of the input is edited, a page of the help or the output is turned, or nothing is done. -/
  | edit
  /-- The mode or the position changes and the screen is drawn. -/
  | view
  | openHelp
  /-- A command that publishes nothing. -/
  | openOutput
  /-- The help or the output is closed, and the screen is drawn. -/
  | close
  /-- A line that was saved. -/
  | send (msg : Message)
  /-- `:nick` -/
  | rename (notice : Message)
  | quit
  deriving DecidableEq

inductive RefreshEvent
  /-- `room_broadcast` by another session. -/
  | broadcast (msg : Message)
  /-- `client_queue_bell`, or the window has another size. -/
  | redraw
  /-- The next critical section of the session. -/
  | advance
  /-- The poll runs out. -/
  | timeout
  /-- `inbox` is whether the output is the inbox and there is news for it. -/
  | compare (inbox : Bool)
  | key (effect : KeyEffect)
  | leave
  deriving DecidableEq

/-- `input_run_session`, from `room_add_client` on. -/
def Viewer.join (room : RoomView) (notice : Message) (seen : Nat) : Viewer :=
  ⟨room, .joining notice, false, false, false, seen, none⟩

/-- Help or the output of a command hides the room. -/
def Viewer.covered (v : Viewer) : Bool := v.showHelp || v.commandOutput

/-- `tui_render_screen`, with the messages it found. -/
def Viewer.drawn (v : Viewer) (first : Bool) : Viewer :=
  { v with frame := some v.room, spot := if first then .reading else .waiting }

/-- `handle_key` -/
def Viewer.press (v : Viewer) : KeyEffect → Option Viewer
  | .edit => some v
  | .view => if v.covered then none else some { v with spot := .counting false }
  | .openHelp => if v.covered then none else some { v with showHelp := true }
  | .openOutput => if v.covered then none else some { v with commandOutput := true }
  | .close =>
    if v.showHelp then some { v with showHelp := false, spot := .counting false }
    else if v.commandOutput then some { v with commandOutput := false, spot := .counting false }
    else none
  | .send msg => if v.covered then none else some { v with spot := .sending msg false }
  | .rename notice => if v.covered then none else some { v with spot := .sending notice true }
  | .quit => if v.covered then none else some { v with spot := .left }

/-- What the loop does once it has read the number. -/
def Viewer.compare (v : Viewer) (current : Nat) (inbox : Bool) : Viewer :=
  let redraw := v.redrawPending || (v.commandOutput && inbox)
  let updated := current != v.seen
  if redraw || (updated && !v.covered) then
    { v with seen := current, redrawPending := false, spot := if v.covered then .waiting else .counting false }
  else { v with seen := current, spot := .waiting }

/-- The next critical section of the session's thread, and what it does up to the one after. -/
def Viewer.advance (v : Viewer) : Option Viewer :=
  match v.spot with
  | .joining notice => some { v with room := roomBroadcast v.room notice, spot := .counting true }
  | .counting first =>
    -- Where there is nothing to copy the room is not looked at again.
    some (if v.room.value = [] then v.drawn first else { v with spot := .copying first })
  | .copying first => some (v.drawn first)
  | .reading => some { v with seen := v.room.version, spot := .waiting }
  | .sending msg output =>
    let v := { v with room := roomBroadcast v.room msg }
    some (if output then { v with commandOutput := true, spot := .waiting } else { v with spot := .counting false })
  | _ => none

def refreshStep (v : Viewer) : RefreshEvent → Option Viewer
  | .broadcast msg => some { v with room := roomBroadcast v.room msg }
  | .redraw => some { v with redrawPending := true }
  | .advance => v.advance
  | .timeout => if v.spot = .waiting then some { v with spot := .comparing v.room.version } else none
  | .compare inbox =>
    match v.spot with
    | .comparing current => some (v.compare current inbox)
    | _ => none
  | .key effect => if v.spot = .waiting then v.press effect else none
  | .leave =>
    match v.spot with
    | .waiting | .comparing _ => some { v with spot := .left }
    | _ => none

/-- The session waits with the room on its screen, and sees no reason to draw it again. -/
structure Viewer.Settled (v : Viewer) : Prop where
  waiting : v.spot = .waiting
  help : v.showHelp = false
  output : v.commandOutput = false
  pending : v.redrawPending = false
  seen : v.seen = v.room.version

/-- Nothing is published between the first frame and the reading of the number. -/
def Viewer.Undisturbed (v : Viewer) : RefreshEvent → Prop
  | .broadcast _ => v.spot ≠ .reading
  | _ => True

instance (v : Viewer) (e : RefreshEvent) : Decidable (v.Undisturbed e) := by
  unfold Viewer.Undisturbed
  split <;> infer_instance

/-! ## The invariant -/

variable {v v' : Viewer} {room : RoomView} {notice msg : Message} {seen : Nat} {es : List RefreshEvent}

/-- The last frame is not older than the number that is remembered. -/
def Viewer.Shown (v : Viewer) : Prop := ∃ f, v.frame = some f ∧ v.room.Copied f ∧ v.seen ≤ f.version

/-- What holds where the thread is. -/
def Viewer.SoundAt (v : Viewer) : Spot → Prop
  | .joining _ | .counting true | .copying true | .left => True
  | .reading => v.frame = some v.room
  | .waiting => (v.covered = true ∨ v.Shown) ∧ v.seen ≤ v.room.version
  | .comparing current => (v.covered = true ∨ v.Shown) ∧ v.seen ≤ v.room.version ∧ current ≤ v.room.version
  -- A frame is on its way, or an output that covers it.
  | .counting false | .copying false | .sending _ _ => v.seen ≤ v.room.version

def Viewer.Sound (v : Viewer) : Prop := v.SoundAt v.spot

theorem Viewer.Shown.broadcast (h : v.Shown) (msg : Message) :
    Viewer.Shown { v with room := roomBroadcast v.room msg } := by
  obtain ⟨f, hf, hcopied, hle⟩ := h
  exact ⟨f, hf, hcopied.update (roomAddMessage · msg), hle⟩

theorem Viewer.sound_join (room : RoomView) (notice : Message) (seen : Nat) :
    (Viewer.join room notice seen).Sound := trivial

/-- What is published is kept in mind at every spot but one. -/
theorem Viewer.SoundAt.broadcast {spot : Spot} (h : v.SoundAt spot) (hspot : spot ≠ .reading) (msg : Message) :
    Viewer.SoundAt { v with room := roomBroadcast v.room msg } spot := by
  have hmore : v.room.version ≤ (roomBroadcast v.room msg).version := Nat.le_succ _
  match spot, h with
  | .joining _, _ | .counting true, _ | .copying true, _ | .left, _ => trivial
  | .reading, _ => exact absurd rfl hspot
  | .waiting, ⟨hshown, hle⟩ => exact ⟨hshown.imp_right (·.broadcast msg), hle.trans hmore⟩
  | .comparing _, ⟨hshown, hle, hcur⟩ =>
    exact ⟨hshown.imp_right (·.broadcast msg), hle.trans hmore, hcur.trans hmore⟩
  | .counting false, h | .copying false, h | .sending _ _, h => exact Nat.le_trans h hmore

/-- Once a frame is drawn it shows the room as it is. -/
theorem Viewer.sound_drawn {first : Bool} (h : v.SoundAt (.copying first)) : (v.drawn first).Sound := by
  cases first with
  | true => exact rfl
  | false => exact ⟨.inr ⟨v.room, rfl, .refl v.room, h⟩, h⟩

theorem Viewer.sound_advance (h : v.Sound) (hv : v.advance = some v') : v'.Sound := by
  unfold Sound at h
  unfold advance at hv
  match hspot : v.spot with
  | .joining notice =>
    rw [hspot] at hv
    cases hv
    trivial
  | .counting first =>
    have hcopying : v.SoundAt (.copying first) := by
      rw [hspot] at h
      cases first <;> exact h
    rw [hspot] at hv
    replace hv : some (if v.room.value = [] then v.drawn first else { v with spot := .copying first }) = some v' := hv
    split at hv <;> cases hv
    · exact sound_drawn hcopying
    · exact hcopying
  | .copying first =>
    rw [hspot] at h hv
    cases hv
    exact sound_drawn h
  | .reading =>
    rw [hspot] at h hv
    cases hv
    exact ⟨.inr ⟨v.room, h, .refl v.room, Nat.le_refl _⟩, Nat.le_refl _⟩
  | .sending msg output =>
    rw [hspot] at h hv
    have hmore : v.seen ≤ (roomBroadcast v.room msg).version := Nat.le_succ_of_le h
    cases output with
    | true =>
      cases hv
      exact ⟨.inl (Bool.or_true _), hmore⟩
    | false =>
      cases hv
      exact hmore
  | .waiting | .comparing _ | .left =>
    rw [hspot] at hv
    cases hv

/-- A newer number is remembered only where the room is drawn, or covered. -/
theorem Viewer.sound_compare {current : Nat} (h : v.SoundAt (.comparing current)) (inbox : Bool) :
    (v.compare current inbox).Sound := by
  obtain ⟨hshown, -, hcur⟩ := h
  unfold compare
  dsimp only
  by_cases hcovered : v.covered = true
  · have hwaiting : ∀ pending, Viewer.Sound { v with seen := current, redrawPending := pending, spot := .waiting } :=
      fun _ => ⟨.inl hcovered, hcur⟩
    split
    · exact hwaiting false
    · exact hwaiting v.redrawPending
  · rw [Bool.not_eq_true] at hcovered
    split
    · rw [hcovered]
      exact hcur
    · rename_i hkeep
      have hsame : current = v.seen := by
        rw [hcovered] at hkeep
        by_contra hne
        exact hkeep (by simp [hne])
      subst hsame
      exact ⟨hshown.imp_right id, hcur⟩

theorem Viewer.sound_press {effect : KeyEffect} (hspot : v.spot = .waiting) (h : v.SoundAt .waiting)
    (hv : v.press effect = some v') : v'.Sound := by
  obtain ⟨hshown, hle⟩ := h
  cases effect with
  | edit =>
    cases hv
    unfold Sound
    rw [hspot]
    exact ⟨hshown, hle⟩
  | openHelp =>
    simp only [press, Option.ite_none_left_eq_some, Option.some.injEq] at hv
    obtain ⟨-, rfl⟩ := hv
    unfold Sound
    rw [hspot]
    exact ⟨.inl rfl, hle⟩
  | openOutput =>
    simp only [press, Option.ite_none_left_eq_some, Option.some.injEq] at hv
    obtain ⟨-, rfl⟩ := hv
    unfold Sound
    rw [hspot]
    exact ⟨.inl (Bool.or_true _), hle⟩
  | close =>
    simp only [press] at hv
    split at hv
    · cases hv
      exact hle
    · split at hv <;> cases hv
      exact hle
  | quit =>
    simp only [press, Option.ite_none_left_eq_some, Option.some.injEq] at hv
    obtain ⟨-, rfl⟩ := hv
    trivial
  | view | send | rename =>
    simp only [press, Option.ite_none_left_eq_some, Option.some.injEq] at hv
    obtain ⟨-, rfl⟩ := hv
    exact hle

theorem Viewer.sound_step {e : RefreshEvent} (h : v.Sound) (hq : v.Undisturbed e) (hv : refreshStep v e = some v') :
    v'.Sound := by
  cases e with
  | broadcast msg =>
    cases hv
    exact SoundAt.broadcast h hq msg
  | redraw =>
    cases hv
    exact h
  | advance => exact sound_advance h hv
  | timeout =>
    simp only [refreshStep, Option.ite_none_right_eq_some, Option.some.injEq] at hv
    obtain ⟨hspot, rfl⟩ := hv
    unfold Sound at h
    rw [hspot] at h
    exact ⟨h.1, h.2, Nat.le_refl _⟩
  | compare inbox =>
    simp only [refreshStep] at hv
    split at hv <;> cases hv
    rename_i current hspot
    unfold Sound at h
    rw [hspot] at h
    exact sound_compare h inbox
  | key effect =>
    simp only [refreshStep, Option.ite_none_right_eq_some] at hv
    unfold Sound at h
    rw [hv.1] at h
    exact sound_press hv.1 h hv.2
  | leave =>
    simp only [refreshStep] at hv
    split at hv <;> cases hv <;> trivial

theorem Viewer.sound_exec (hq : Meets refreshStep Undisturbed (.join room notice seen) es)
    (h : exec refreshStep (.join room notice seen) es = some v) : v.Sound :=
  exec_inv_of_meets Sound (fun _ _ _ hi hp hs => sound_step hi hp hs) (sound_join room notice seen) hq h

/-- In every run that publishes nothing between the first frame and the reading of the number, a session
that has settled shows the room as it is. -/
theorem refresh_upToDate (hq : Meets refreshStep Viewer.Undisturbed (.join room notice seen) es)
    (h : exec refreshStep (.join room notice seen) es = some v) (hv : v.Settled) : v.frame = some v.room := by
  have hsound := Viewer.sound_exec hq h
  unfold Viewer.Sound at hsound
  rw [hv.waiting] at hsound
  rcases hsound.1 with hcovered | ⟨f, hf, hcopied, hle⟩
  · rw [Viewer.covered, hv.help, hv.output] at hcovered
    cases hcovered
  · rw [hf, hcopied.current hle hv.seen]

def bobJoins : Message := systemMessageMake 0 (.join (CBuf.copy _ (lit "bob"))) .en

def annSaysHi : Message := ⟨5, CBuf.copy _ (lit "ann"), CBuf.copy _ (lit "hi")⟩

/-- Ann says something once the first frame is drawn and the number read. -/
def laterEvents : List RefreshEvent :=
  [.advance, .advance, .advance, .advance, .broadcast annSaysHi, .timeout, .compare false, .advance, .advance]

theorem refresh_upToDate_later :
    ∃ v, exec refreshStep (.join ⟨[], 0⟩ bobJoins 0) laterEvents = some v ∧
      v.room.value = [bobJoins, annSaysHi] ∧ v.frame = some v.room := by
  have hquiet : Meets refreshStep Viewer.Undisturbed (.join ⟨[], 0⟩ bobJoins 0) laterEvents := by decide
  exact ⟨_, rfl, rfl, refresh_upToDate hquiet rfl ⟨rfl, rfl, rfl, rfl, rfl⟩⟩

/-- What is published between the two is missed: the session settles, and the room it shows is older. -/
theorem refresh_missed (hq : Meets refreshStep Viewer.Undisturbed (.join room notice seen) es)
    (h : exec refreshStep (.join room notice seen) es = some v) (hspot : v.spot = .reading) (msg : Message) :
    ∃ v', exec refreshStep v [.broadcast msg, .advance] = some v' ∧ v'.seen = v'.room.version ∧
      v'.spot = .waiting ∧ v'.frame ≠ some v'.room := by
  have hsound := Viewer.sound_exec hq h
  unfold Viewer.Sound at hsound
  rw [hspot] at hsound
  refine ⟨{ v with room := roomBroadcast v.room msg, spot := .waiting, seen := v.room.version + 1 }, ?_, rfl, rfl, ?_⟩
  · simp only [exec_cons, refreshStep, Viewer.advance, hspot, Option.bind_some, exec_nil]
    rfl
  · intro heq
    have hsame : v.room = roomBroadcast v.room msg := Option.some.inj (hsound.symm.trans heq)
    exact (Versioned.Copied.refl v.room).ne_update _ hsame

/-- Bob joins an empty room, and ann says something before the number is read. -/
theorem refresh_missed_hi :
    ¬ ∀ (room : RoomView) (notice : Message) (seen : Nat) (es : List RefreshEvent) (v : Viewer),
      exec refreshStep (.join room notice seen) es = some v → v.Settled → v.frame = some v.room := by
  intro h
  have hframe := h ⟨[], 0⟩ bobJoins 0 [.advance, .advance, .advance, .broadcast annSaysHi, .advance] _ rfl
    ⟨rfl, rfl, rfl, rfl, rfl⟩
  exact absurd (congrArg (Option.map Versioned.version) hframe) (by decide)

end Tnt
