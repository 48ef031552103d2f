import Tnt.Lib.Windows
import Tnt.InsertMode
import Tnt.Pagers
import Tnt.Publication
/-!
# The keys of a session (`input.c`, `commands.c`)

`handle_key` in every mode and under every page, and what the main loop does with a key that is not consumed. The
channel behind a key is any `Feed`, and what the room holds and what a command has to show may be anything at every key.

A page keeps what is typed (`pages_keep_texts`), Ctrl+C leads out of everything (`ctrlC_leaves`), and the arrow keys
bring back what was sent (`histories_of_run`, `recalled_sent_again`).
-/
open BaseLib

namespace Tnt

/-! ## A session and its surroundings -/

/-- The fields of `client_t` that keys read and change, and the input line. -/
structure ClientState extends KeyState where
  connected : Bool
  uiLang : UiLang
  muteJoins : Bool
  themeIndex : Nat

/-- What a key finds: the channel behind it, the room, and what a command or a refresh would show. -/
structure Surroundings (S : Feed UInt8) where
  channel : S.State
  messages : List Message
  /-- The names in the room. -/
  names : List (CBuf MAX_USERNAME_LEN)
  username : CBuf MAX_USERNAME_LEN
  now : Int
  /-- `output` of `commands_dispatch` and `commands_refresh_active_output` -/
  output : Bytes

/-- What comes of a key beyond its session: a message with the line it was made of, or a command. -/
inductive KeyOutcome
  | post (line : CBuf MAX_MESSAGE_LEN) (msg : Message)
  | run (cmd : Bytes)

namespace ClientState

/-- A session as `input_run_session` begins it, under the message of the day where there is one. -/
def init (height : Nat) (lang : UiLang) (motd : Bytes) : ClientState where
  height := height
  mode := .insert
  view := ⟨0, true⟩
  unreadMentions := 0
  showHelp := false
  helpScrollPos := 0
  commandOutput := motd
  commandOutputScroll := 0
  commandOutputKind := .none
  showMotd := motd ≠ []
  command := .init
  editor := .init
  connected := true
  uiLang := lang
  muteJoins := false
  themeIndex := 0

variable {S : Feed UInt8} (s : ClientState) (a : Surroundings S)

/-- `normal_visible_message_count` -/
def visible : Nat := (visibleMessages s.muteJoins a.messages).length

/-- `normal_scroll_to_latest` -/
def toLatest : ClientState := { s with toKeyState := s.scrollToLatest (s.visible a) }

/-- `normal_scroll_by` -/
def scrolled (delta : Int) : ClientState := { s with toKeyState := s.scrollBy (s.visible a) delta }

/-- `dismiss_command_output` -/
def dismissed : ClientState := { s with toKeyState := s.dismissCommandOutput (s.visible a) }

/-- `tui_render_command_output`, which puts the position back where there is a page. -/
def drawOutput : ClientState :=
  let pager : Pager := ⟨.output, s.commandOutput, s.commandOutputKind = .inbox, s.height, s.commandOutputScroll⟩
  { s with commandOutputScroll := pager.renderOutput.1.scrollPos }

/-! ## `handle_key` -/

/-- Ctrl+C. -/
def ctrlC : ClientState :=
  if s.showHelp then { s with showHelp := false }
  else if s.commandOutput ≠ [] then s.dismissed a
  else if s.mode ≠ .normal then
    let left : ClientState := { s with mode := .normal, command := s.command.clear, showHelp := false }
    if s.mode = .insert then left.toLatest a else left
  else { s with connected := false }

/-- A key on the help screen. -/
def helpKey (key : UInt8) : ClientState :=
  if key = 0x6C ∨ key = 0x4C then { s with uiLang := i18nNextUiLang s.uiLang, helpScrollPos := 0 }
  else
    let (action, pos, _) := pagerApplyKey S s.height key s.helpScrollPos false a.channel
    let s : ClientState := { s with helpScrollPos := pos }
    if action = .close then { s with showHelp := false } else s

/-- A key under the output of a command, or under the message of the day. -/
def outputKey (key : UInt8) : ClientState :=
  if s.showMotd then s.dismissed a
  else
    let (action, pos, _) := pagerApplyKey S s.height key s.commandOutputScroll true a.channel
    let s : ClientState := { s with commandOutputScroll := pos }
    match action with
    | .close => s.dismissed a
    | .scroll => s.drawOutput
    | .refresh =>
      if s.commandOutputKind = .inbox then
        drawOutput { s with commandOutput := a.output, commandOutputScroll := 0 }
      else s
    | .none => s

/-- `normal_enter_insert` -/
def enterInsert : ClientState :=
  { s with mode := .insert, view := { s.view with followTail := true }, unreadMentions := 0 }

/-- Enter in INSERT mode. -/
def sendInput : ClientState × List KeyOutcome :=
  if s.editor.input.bytes = [] then (s, [])
  else
    ({ s with editor := s.editor.enter },
      [.post s.editor.input (composeUserMessage a.now a.username.bytes s.editor.input.bytes)])

/-- `commands_dispatch`, for a line with a command in it. -/
def dispatch (cmd : Bytes) : ClientState :=
  let s : ClientState := { s with command := s.command.record (CBuf.copy _ cmd) }
  let shown (s : ClientState) (kind : CommandOutputKind) : ClientState :=
    drawOutput { s with
      commandOutput := a.output, commandOutputScroll := 0, commandOutputKind := kind, command := s.command.clear }
  match commandCatalogMatch cmd with
  | none => shown s .none
  | some (id, arg) =>
    if !commandCatalogArgsValid id arg then shown s .none
    else
      match id with
      | .lang => shown { s with uiLang := (i18nTryParseUiLang arg).getD s.uiLang } .none
      | .inbox => shown s .inbox
      | .muteJoins => shown { s with muteJoins := !s.muteJoins } .none
      | .theme =>
        let name := skipSpaces arg
        shown { s with themeIndex := (themeNames.findIdx? (· == name)).getD s.themeIndex } .none
      -- The line stays in `command_input`.
      | .quit => { s with connected := false }
      | _ => shown s .none

/-- Enter in COMMAND mode: `commands_dispatch`. -/
def commandsDispatch : ClientState × List KeyOutcome :=
  let cmd := commandText s.command.input
  if cmd = [] then ({ s with mode := .normal, command := s.command.clear }, [])
  else (s.dispatch a cmd, [.run cmd])

/-- `handle_key` in INSERT mode; nothing where the key is not consumed. -/
def insertModeKey (key : UInt8) : Option (ClientState × List KeyOutcome) :=
  let edited (editor : Editor MAX_MESSAGE_LEN) : Option (ClientState × List KeyOutcome) := some ({ s with editor }, [])
  if key = esc then some ({ s with toKeyState := (insertEscape S (s.visible a) s.toKeyState a.channel).1 }, [])
  else if key = 0x0D ∨ key = newline then some (s.sendInput a)
  else if key = 127 ∨ key = 8 then edited s.editor.backspace
  else if key = 23 then edited s.editor.deleteWord
  else if key = 21 then edited s.editor.clear
  else if key = 9 then edited { s.editor with input := completeMention a.names a.username s.editor.input }
  else none

/-- Half of a page, and a row at least. -/
def halfPage (page : Int) : Int := if page / 2 < 1 then 1 else page / 2

/-- `handle_key` in NORMAL mode. -/
def normalModeKey (key : UInt8) : Option (ClientState × List KeyOutcome) :=
  let page : Int := historyViewHeight s.height
  let scroll (delta : Int) : Option (ClientState × List KeyOutcome) := some (s.scrolled a delta, [])
  if key = 0x69 ∨ key = 0x61 ∨ key = 0x41 ∨ key = 0x6F ∨ key = 0x4F then some (s.enterInsert, [])
  else if key = 0x3A then some ({ s with mode := .command, command := commandKey a.names s.command .colon }, [])
  else if key = 0x2F then some ({ s with mode := .command, command := commandKey a.names s.command .slash }, [])
  else if key = 0x6A then scroll 1
  else if key = 0x6B ∧ s.view.scrollPos > 0 then scroll (-1)
  else if key = 4 then scroll (halfPage page)
  else if key = 21 then scroll (-halfPage page)
  else if key = 6 then scroll page
  else if key = 2 then scroll (-page)
  else if key = 0x67 then some ({ s with view := historyViewScrollToOldest }, [])
  else if key = 0x47 then some ({ s.toLatest a with unreadMentions := 0 }, [])
  else if key = esc then some ({ s with toKeyState := (normalEscape S (s.visible a) s.toKeyState a.channel).1 }, [])
  else if key = 0x3F then some ({ s with showHelp := true, helpScrollPos := 0 }, [])
  else none

/-- `handle_key` in COMMAND mode. -/
def commandModeKey (key : UInt8) : Option (ClientState × List KeyOutcome) :=
  let edited (command : Editor MAX_COMMAND_INPUT_LEN) : Option (ClientState × List KeyOutcome) :=
    some ({ s with command }, [])
  if key = esc then some ({ s with toKeyState := (commandEscape S s.toKeyState a.channel).1 }, [])
  else if key = 0x0D ∨ key = newline then some (s.commandsDispatch a)
  else if key = 127 ∨ key = 8 then edited s.command.backspace
  else if key = 23 then edited s.command.deleteWord
  else if key = 21 then edited s.command.clear
  else if key = 9 then edited { s.command with input := commandTabComplete a.names s.command.input }
  else none

/-- `handle_key` -/
def handleKey (key : UInt8) : Option (ClientState × List KeyOutcome) :=
  if key = 3 then some (s.ctrlC a, [])
  else if s.showHelp then some (s.helpKey a key, [])
  else if s.commandOutput ≠ [] then some (s.outputKey a key, [])
  else
    match s.mode with
    | .insert => s.insertModeKey a key
    | .normal => s.normalModeKey a key
    | .command => s.commandModeKey a key

/-- The main loop, for a key that was not consumed: what starts a longer sequence is read on. -/
def typeByte (b : UInt8) : ClientState :=
  let rest := if b ≥ 128 ∧ utf8ByteLength b > 1 then (S.read (utf8ByteLength b - 1) a.channel).1 else []
  match s.mode with
  | .insert => { s with editor := s.editor.byte b rest }
  | .normal => s
  | .command => { s with command := s.command.byte b rest }

/-- A round of the main loop, for a key. -/
def keyRound (key : UInt8) : ClientState × List KeyOutcome := (s.handleKey a key).getD (s.typeByte a key, [])

/-- A round of the main loop where no key has come, with `redraw_pending` and whether there are unread whispers. -/
def pollRound (unreadWhispers roomUpdated redraw : Bool) : ClientState :=
  let refreshed := s.commandOutputKind = .inbox ∧ s.commandOutput ≠ [] ∧ unreadWhispers
  let s : ClientState := if refreshed then { s with commandOutput := a.output, commandOutputScroll := 0 } else s
  if redraw ∨ refreshed ∨ roomUpdated ∧ s.showHelp = false ∧ s.commandOutput = [] then
    if s.showHelp ∨ s.showMotd then s
    else if s.commandOutput ≠ [] then s.drawOutput
    else if roomUpdated ∧ s.mode = .normal ∧ s.view.followTail then s.toLatest a
    else s
  else s

end ClientState

inductive LoopEvent (S : Feed UInt8)
  | key (a : Surroundings S) (key : UInt8)
  | poll (a : Surroundings S) (unreadWhispers roomUpdated redraw : Bool)
  | resize (height : Nat)
  /-- Another session mentions this one. -/
  | mention
  /-- The channel is closed. -/
  | close

variable (S : Feed UInt8)

/-- The main loop of a session, from one round to the next, and what others do to it in between. -/
def loopStep (s : ClientState) (e : LoopEvent S) : Option ClientState :=
  if s.connected then
    match e with
    | .key a key => some (s.keyRound a key).1
    | .poll a unreadWhispers roomUpdated redraw => some (s.pollRound a unreadWhispers roomUpdated redraw)
    | .resize height => some { s with height := height }
    | .mention => some { s with unreadMentions := s.unreadMentions + 1 }
    | .close => some { s with connected := false }
  else none

def loopEffects (s : ClientState) : LoopEvent S → List KeyOutcome
  | .key a key => (s.keyRound a key).2
  | _ => []


/-! ## What a key leaves of the texts -/

/-- The lines under edit are the same, and those that were sent. -/
def SameTexts (s s' : KeyState) : Prop := s'.editor = s.editor ∧ s'.command = s.command

/-- The lines that were sent are the same. -/
def SameLines (s s' : KeyState) : Prop :=
  s'.editor.history = s.editor.history ∧ s'.command.history = s.command.history

theorem SameTexts.lines {s s' : KeyState} (h : SameTexts s s') : SameLines s s' :=
  ⟨congrArg Editor.history h.1, congrArg Editor.history h.2⟩

section Editors
variable {cap : Nat} [NeZero cap] (e : Editor cap)

@[simp] theorem Editor.history_clear : e.clear.history = e.history := rfl

@[simp] theorem Editor.history_backspace : e.backspace.history = e.history := rfl

@[simp] theorem Editor.history_deleteWord : e.deleteWord.history = e.history := rfl

omit [NeZero cap] in
@[simp] theorem Editor.history_up : e.up.history = e.history := by
  unfold Editor.up
  split <;> rfl

@[simp] theorem Editor.history_down : e.down.history = e.history := by
  unfold Editor.down
  split <;> rfl

@[simp] theorem Editor.history_byte (b : UInt8) (rest : Bytes) : (e.byte b rest).history = e.history := by
  unfold Editor.byte
  dsimp only
  split_ifs <;> rfl

omit [NeZero cap] in
theorem Editor.history_record (line : CBuf cap) : (e.record line).history = slide 16 e.history line := by
  unfold Editor.record slide
  dsimp only
  congr 1
  split_ifs <;> first | rfl | omega

end Editors

namespace ClientState

variable {S : Feed UInt8} {s s' : ClientState} (a : Surroundings S)

theorem sameTexts_dismiss (visible : Nat) (s : KeyState) : SameTexts s (s.dismissCommandOutput visible) := by
  unfold KeyState.dismissCommandOutput
  dsimp only
  split <;> exact ⟨rfl, rfl⟩

theorem sameTexts_ctrlC_page (h : s.showHelp = true ∨ s.commandOutput ≠ []) :
    SameTexts s.toKeyState (s.ctrlC a).toKeyState := by
  unfold ctrlC
  split
  · exact ⟨rfl, rfl⟩
  · rename_i hhelp
    rw [if_pos (h.resolve_left hhelp)]
    exact sameTexts_dismiss _ _

theorem sameLines_ctrlC : SameLines s.toKeyState (s.ctrlC a).toKeyState := by
  unfold ctrlC
  dsimp only
  split
  · exact ⟨rfl, rfl⟩
  split
  · exact (sameTexts_dismiss _ _).lines
  split
  · split <;> exact ⟨rfl, rfl⟩
  · exact ⟨rfl, rfl⟩

theorem sameTexts_helpKey (key : UInt8) : SameTexts s.toKeyState (s.helpKey a key).toKeyState := by
  unfold helpKey
  dsimp only
  split
  · exact ⟨rfl, rfl⟩
  · split <;> exact ⟨rfl, rfl⟩

theorem sameTexts_outputKey (key : UInt8) : SameTexts s.toKeyState (s.outputKey a key).toKeyState := by
  unfold outputKey
  dsimp only
  split
  · exact sameTexts_dismiss _ _
  split
  · exact sameTexts_dismiss _ _
  · exact ⟨rfl, rfl⟩
  · split <;> exact ⟨rfl, rfl⟩
  · exact ⟨rfl, rfl⟩

theorem sameTexts_normalEscape (visible : Nat) (s : KeyState) (c : S.State) :
    SameTexts s (normalEscape S visible s c).1 := by
  unfold normalEscape
  split
  · split
    · split
      · rename_i key _ _
        cases key <;> exact ⟨rfl, rfl⟩
      · exact ⟨rfl, rfl⟩
    · exact ⟨rfl, rfl⟩
  · exact ⟨rfl, rfl⟩

theorem sameLines_insertEscape (visible : Nat) (s : KeyState) (c : S.State) :
    SameLines s (insertEscape S visible s c).1 := by
  unfold insertEscape
  dsimp only
  split
  · split
    · split
      · split_ifs
        · exact ⟨Editor.history_up _, rfl⟩
        · exact ⟨Editor.history_down _, rfl⟩
        · unfold insertPaste
          dsimp only
          split <;> exact ⟨rfl, rfl⟩
        · exact ⟨rfl, rfl⟩
      · exact ⟨rfl, rfl⟩
    · exact ⟨rfl, rfl⟩
  · exact ⟨rfl, rfl⟩

theorem sameLines_commandEscape (s : KeyState) (c : S.State) : SameLines s (commandEscape S s c).1 := by
  unfold commandEscape
  dsimp only
  split
  · split
    · split
      · split_ifs
        · exact ⟨rfl, Editor.history_up _⟩
        · exact ⟨rfl, Editor.history_down _⟩
        · exact ⟨rfl, rfl⟩
      · exact ⟨rfl, rfl⟩
    · exact ⟨rfl, rfl⟩
  · exact ⟨rfl, rfl⟩

theorem dispatch_lines (cmd : Bytes) :
    (s.dispatch a cmd).editor = s.editor ∧
      (s.dispatch a cmd).command.history = (s.command.record (CBuf.copy _ cmd)).history := by
  unfold dispatch
  dsimp only
  split
  · exact ⟨rfl, rfl⟩
  split
  · exact ⟨rfl, rfl⟩
  · split <;> exact ⟨rfl, rfl⟩

theorem sameLines_typeByte (b : UInt8) : SameLines s.toKeyState (s.typeByte a b).toKeyState := by
  unfold typeByte
  dsimp only
  split
  · exact ⟨Editor.history_byte _ _ _, rfl⟩
  · exact ⟨rfl, rfl⟩
  · exact ⟨rfl, Editor.history_byte _ _ _⟩

/-- A page is open. -/
def Covered (s : ClientState) : Prop := s.showHelp = true ∨ s.commandOutput ≠ []

instance (s : ClientState) : Decidable s.Covered := inferInstanceAs (Decidable (_ ∨ _))

/-- What a key does to what was sent, in three shapes: nothing, or a line of the input is sent, or a command runs. -/
inductive KeySpec (s : ClientState) (a : Surroundings S) : ClientState → List KeyOutcome → Prop
  | quiet {t : ClientState} (h : SameLines s.toKeyState t.toKeyState) : KeySpec s a t []
  | sent {t : ClientState} (huncovered : ¬ s.Covered) (hmode : s.mode = .insert) (hne : s.editor.input.bytes ≠ [])
      (heditor : t.editor = s.editor.enter) (hcommand : t.command = s.command) :
      KeySpec s a t [.post s.editor.input (composeUserMessage a.now a.username.bytes s.editor.input.bytes)]
  | ran {t : ClientState} {cmd : Bytes} (huncovered : ¬ s.Covered) (hmode : s.mode = .command)
      (hcmd : cmd = commandText s.command.input) (hne : cmd ≠ []) (heditor : t.editor = s.editor)
      (hcommand : t.command.history = (s.command.record (CBuf.copy _ cmd)).history) : KeySpec s a t [.run cmd]

theorem insertModeKey_spec (huncovered : ¬ s.Covered) (hmode : s.mode = .insert) {key : UInt8} {r}
    (h : s.insertModeKey a key = some r) : KeySpec s a r.1 r.2 := by
  unfold insertModeKey at h
  dsimp only at h
  split at h
  · cases h
    exact .quiet (sameLines_insertEscape _ _ _)
  split at h
  · cases h
    unfold sendInput
    split
    · exact .quiet ⟨rfl, rfl⟩
    · rename_i hne
      exact .sent huncovered hmode hne rfl rfl
  split_ifs at h
  all_goals
    cases h
    exact .quiet ⟨rfl, rfl⟩

theorem normalModeKey_spec {key : UInt8} {r} (h : s.normalModeKey a key = some r) : KeySpec s a r.1 r.2 := by
  have hquiet : ∀ {c : Prop} [Decidable c] {t : ClientState} {other : Option (ClientState × List KeyOutcome)},
      SameLines s.toKeyState t.toKeyState → (other = some r → KeySpec s a r.1 r.2) →
      (if c then some (t, []) else other) = some r → KeySpec s a r.1 r.2 := by
    intro c _ t other hsame hother hr
    split at hr
    · cases hr
      exact .quiet hsame
    · exact hother hr
  revert h
  unfold normalModeKey
  iterate 11 refine hquiet ⟨rfl, rfl⟩ ?_
  refine hquiet (sameTexts_normalEscape _ _ _).lines ?_
  refine hquiet ⟨rfl, rfl⟩ ?_
  exact nofun

theorem commandModeKey_spec (huncovered : ¬ s.Covered) (hmode : s.mode = .command) {key : UInt8} {r}
    (h : s.commandModeKey a key = some r) : KeySpec s a r.1 r.2 := by
  unfold commandModeKey at h
  dsimp only at h
  split at h
  · cases h
    exact .quiet (sameLines_commandEscape _ _)
  split at h
  · cases h
    unfold commandsDispatch
    dsimp only
    split
    · exact .quiet ⟨rfl, rfl⟩
    · rename_i hne
      exact .ran huncovered hmode rfl hne (dispatch_lines a _).1 (dispatch_lines a _).2
  split_ifs at h
  all_goals
    cases h
    exact .quiet ⟨rfl, rfl⟩

theorem handleKey_spec {key : UInt8} {r} (h : s.handleKey a key = some r) : KeySpec s a r.1 r.2 := by
  unfold handleKey at h
  split at h
  · cases h
    exact .quiet (sameLines_ctrlC a)
  split at h
  · cases h
    exact .quiet (sameTexts_helpKey a key).lines
  split at h
  · cases h
    exact .quiet (sameTexts_outputKey a key).lines
  rename_i hhelp houtput
  have huncovered : ¬ s.Covered := not_or.2 ⟨hhelp, houtput⟩
  split at h
  · exact insertModeKey_spec a huncovered ‹_› h
  · exact normalModeKey_spec a h
  · exact commandModeKey_spec a huncovered ‹_› h

theorem keyRound_spec (key : UInt8) : KeySpec s a (s.keyRound a key).1 (s.keyRound a key).2 := by
  unfold keyRound
  cases h : s.handleKey a key with
  | none => exact .quiet (sameLines_typeByte a key)
  | some r => exact handleKey_spec a h

theorem sameTexts_pollRound (unreadWhispers roomUpdated redraw : Bool) :
    SameTexts s.toKeyState (s.pollRound a unreadWhispers roomUpdated redraw).toKeyState := by
  unfold pollRound
  dsimp only
  split_ifs <;> exact ⟨rfl, rfl⟩

end ClientState

/-- What `ann` finds around her, alone in the room, with these packets behind the key. -/
def annAlone (packets : List Bytes) : Surroundings (Feed.packets UInt8) :=
  ⟨packets, [], [CBuf.copy _ (lit "ann")], CBuf.copy _ (lit "ann"), 0, lit "Users"⟩

/-! ## Pages -/

section Runs
variable {S} {s s' : ClientState}

theorem loopStep_some {e : LoopEvent S} (h : loopStep S s e = some s') : s.connected = true := by
  unfold loopStep at h
  split at h
  · assumption
  · cases h

/-- A step is a round for a key, or it leaves the texts. -/
theorem loopStep_cases {e : LoopEvent S} (h : loopStep S s e = some s') :
    (∃ a key, e = .key a key ∧ s' = (s.keyRound a key).1) ∨
      SameTexts s.toKeyState s'.toKeyState ∧ loopEffects S s e = [] := by
  have hconnected := loopStep_some h
  unfold loopStep at h
  rw [if_pos hconnected] at h
  cases e with
  | key a key => exact .inl ⟨a, key, rfl, (Option.some.inj h).symm⟩
  | poll a unreadWhispers roomUpdated redraw =>
    cases h
    exact .inr ⟨ClientState.sameTexts_pollRound a _ _ _, rfl⟩
  | resize height =>
    cases h
    exact .inr ⟨⟨rfl, rfl⟩, rfl⟩
  | mention =>
    cases h
    exact .inr ⟨⟨rfl, rfl⟩, rfl⟩
  | close =>
    cases h
    exact .inr ⟨⟨rfl, rfl⟩, rfl⟩

/-- Under a page, a key leaves the texts and sends nothing. -/
theorem keyRound_covered (hcovered : s.Covered) (a : Surroundings S) (key : UInt8) :
    SameTexts s.toKeyState (s.keyRound a key).1.toKeyState ∧ (s.keyRound a key).2 = [] := by
  have hround : ∃ t : ClientState, s.handleKey a key = some (t, []) ∧ SameTexts s.toKeyState t.toKeyState := by
    unfold ClientState.handleKey
    split
    · exact ⟨_, rfl, ClientState.sameTexts_ctrlC_page a hcovered⟩
    split
    · exact ⟨_, rfl, ClientState.sameTexts_helpKey a key⟩
    · rename_i hhelp
      rw [if_pos (hcovered.resolve_left hhelp)]
      exact ⟨_, rfl, ClientState.sameTexts_outputKey a key⟩
  obtain ⟨t, ht, htexts⟩ := hround
  rw [ClientState.keyRound, ht]
  exact ⟨htexts, rfl⟩

theorem covered_step {e : LoopEvent S} (hcovered : s.Covered) (h : loopStep S s e = some s') :
    SameTexts s.toKeyState s'.toKeyState ∧ loopEffects S s e = [] := by
  rcases loopStep_cases h with ⟨a, key, rfl, rfl⟩ | hquiet
  · exact keyRound_covered hcovered a key
  · exact hquiet

/-- As long as a page is open, no keys, in whatever order, change what is typed or was sent, and nothing is sent. -/
theorem pages_keep_texts {es : List (LoopEvent S)} (hcovered : Meets (loopStep S) (fun t _ => t.Covered) s es)
    (h : exec (loopStep S) s es = some s') :
    SameTexts s.toKeyState s'.toKeyState ∧ heard (loopStep S) (loopEffects S) s es = [] := by
  induction es generalizing s with
  | nil =>
    cases h
    exact ⟨⟨rfl, rfl⟩, rfl⟩
  | cons e es ih =>
    obtain ⟨t, ht, hes⟩ := exec_cons_some h
    obtain ⟨htexts, hquiet⟩ := covered_step hcovered.1 ht
    obtain ⟨hrest, hnone⟩ := ih (hcovered.2 t ht) hes
    refine ⟨⟨hrest.1.trans htexts.1, hrest.2.trans htexts.2⟩, ?_⟩
    rw [heard, hquiet, ht, Option.elim_some, hnone, List.append_nil]

/-- The help is opened over a line, scrolled, and closed; the keys that would leave it or send it do nothing there. -/
theorem pages_keep_texts_help :
    let typed := [LoopEvent.key (annAlone []) 0x68, .key (annAlone []) 3, .key (annAlone []) 0x3F]
    let read := [LoopEvent.key (annAlone []) 0x6A, .key (annAlone []) 0x69, .key (annAlone []) 0x0D,
      .key (annAlone []) 0x71]
    ∃ s t, exec (loopStep _) (.init 24 .en []) typed = some s ∧ exec (loopStep _) s read = some t ∧
      SameTexts s.toKeyState t.toKeyState ∧ t.editor.input.bytes = lit "h" ∧ t.showHelp = false := by
  intro typed read
  obtain ⟨s, hs⟩ : ∃ s, exec (loopStep _) (.init 24 .en []) typed = some s :=
    Option.isSome_iff_exists.1 (by decide)
  have hboth : ((exec (loopStep _) (.init 24 .en []) typed).bind fun s => (exec (loopStep _) s read).map fun t =>
      (decide (Meets (loopStep _) (fun u _ => u.Covered) s read), t.editor.input.bytes, t.showHelp)) =
      some (true, lit "h", false) := by decide
  rw [hs, Option.bind_some, Option.map_eq_some_iff] at hboth
  obtain ⟨t, ht, heq⟩ := hboth
  simp only [Prod.mk.injEq, decide_eq_true_iff] at heq
  exact ⟨s, t, hs, ht, (pages_keep_texts heq.1 ht).1, heq.2⟩

/-! ## Ctrl+C -/

/-- How many times Ctrl+C is to be pressed until the session ends: once for each page, once for each mode in front of
NORMAL mode, and once there. -/
def ClientState.ctrlCs (s : ClientState) : Nat :=
  if s.connected then
    (if s.showHelp then 1 else 0) +
      (if s.commandOutput ≠ [] then if s.showMotd then 2 else 1 else if s.mode ≠ .normal then 1 else 0) + 1
  else 0

theorem ctrlCs_drawOutput : s.drawOutput.ctrlCs = s.ctrlCs := rfl

/-- The line that a message was made of. -/
def KeyOutcome.line : KeyOutcome → Option (CBuf MAX_MESSAGE_LEN)
  | .post line _ => some line
  | .run _ => none

/-- The command, as it is kept. -/
def KeyOutcome.command : KeyOutcome → Option (CBuf MAX_COMMAND_INPUT_LEN)
  | .post _ _ => none
  | .run cmd => some (CBuf.copy _ cmd)

/-- The newest sixteen lines and commands of all there were are kept, and no empty line. -/
structure Kept (s : ClientState) (effects : List KeyOutcome) : Prop where
  lines : s.editor.history = (effects.filterMap KeyOutcome.line).rtake 16
  commands : s.command.history = (effects.filterMap KeyOutcome.command).rtake 16
  nonempty : ∀ line ∈ s.editor.history, line.bytes ≠ []

theorem Kept.of_sameLines {effects : List KeyOutcome} (h : Kept s effects)
    (hsame : SameLines s.toKeyState s'.toKeyState) : Kept s' effects where
  lines := hsame.1.trans h.lines
  commands := hsame.2.trans h.commands
  nonempty := hsame.1 ▸ h.nonempty

theorem history_enter {cap : Nat} [NeZero cap] {e : Editor cap} (h : e.input.bytes ≠ []) :
    e.enter.history = slide 16 e.history e.input := by
  rw [Editor.enter, if_neg h, Editor.history_clear, Editor.history_record]

theorem mem_slide {α : Type*} {n : Nat} {l : List α} {x y : α} (h : y ∈ slide n l x) : y ∈ l ∨ y = x := by
  rcases List.mem_append.1 h with h | h
  · split at h
    · exact .inl h
    · exact .inl (List.mem_of_mem_tail h)
  · exact .inr (List.mem_singleton.1 h)

theorem Kept.keyRound {a : Surroundings S} {effects fx : List KeyOutcome} (h : Kept s effects)
    (hspec : ClientState.KeySpec s a s' fx) : Kept s' (effects ++ fx) := by
  cases hspec with
  | quiet hsame =>
    rw [List.append_nil]
    exact h.of_sameLines hsame
  | sent _ _ hne heditor hcommand =>
    have hhistory : s'.editor.history = slide 16 s.editor.history s.editor.input := by
      rw [heditor, history_enter hne]
    refine ⟨?_, ?_, fun line hline => ?_⟩
    · rw [hhistory, h.lines, slide_rtake _ _ (by decide), List.filterMap_append]
      rfl
    · rw [hcommand, h.commands, List.filterMap_append]
      exact congrArg (List.rtake · 16) (List.append_nil _).symm
    · rcases mem_slide (hhistory ▸ hline) with hold | rfl
      · exact h.nonempty line hold
      · exact hne
  | ran _ _ _ _ heditor hcommand =>
    refine ⟨?_, ?_, heditor ▸ h.nonempty⟩
    · rw [heditor, h.lines, List.filterMap_append]
      exact congrArg (List.rtake · 16) (List.append_nil _).symm
    · rw [hcommand, Editor.history_record, h.commands, slide_rtake _ _ (by decide), List.filterMap_append]
      rfl

theorem Kept.step {e : LoopEvent S} {effects : List KeyOutcome} (hkept : Kept s effects)
    (h : loopStep S s e = some s') : Kept s' (effects ++ loopEffects S s e) := by
  rcases loopStep_cases h with ⟨a, key, rfl, rfl⟩ | ⟨hsame, hquiet⟩
  · exact hkept.keyRound (ClientState.keyRound_spec a key)
  · rw [hquiet, List.append_nil]
    exact hkept.of_sameLines hsame.lines

theorem kept_of_run {height : Nat} {lang : UiLang} {motd : Bytes} {es : List (LoopEvent S)}
    (h : exec (loopStep S) (.init height lang motd) es = some s) :
    Kept s (heard (loopStep S) (loopEffects S) (.init height lang motd) es) := by
  have hstart : Kept (ClientState.init height lang motd) [] := ⟨rfl, rfl, nofun⟩
  have hfold : ∀ (fx effects : List KeyOutcome), fx.foldl (fun acc f => acc ++ [f]) effects = effects ++ fx := by
    intro fx
    induction fx with
    | nil => exact fun effects => (List.append_nil effects).symm
    | cons f fx ih => exact fun effects => (ih _).trans (by rw [List.append_assoc, List.singleton_append])
  have hstep : ∀ s e s' effects, Kept s effects → loopStep S s e = some s' →
      Kept s' ((loopEffects S s e).foldl (fun acc f => acc ++ [f]) effects) :=
    fun s e s' effects hkept hstep => (hfold _ _).symm ▸ hkept.step hstep
  have hrun := exec_heard Kept hstep hstart h
  rwa [hfold, List.nil_append] at hrun

/-- After any run of a session, its histories hold the newest sixteen lines that were sent and commands that ran. -/
theorem histories_of_run {height : Nat} {lang : UiLang} {motd : Bytes} {es : List (LoopEvent S)}
    (h : exec (loopStep S) (.init height lang motd) es = some s) :
    let effects := heard (loopStep S) (loopEffects S) (.init height lang motd) es
    s.editor.history = (effects.filterMap KeyOutcome.line).rtake 16 ∧
      s.command.history = (effects.filterMap KeyOutcome.command).rtake 16 :=
  have hkept := kept_of_run h
  ⟨hkept.lines, hkept.commands⟩

/-- One line is sent, and a command runs. -/
def annSends : List (LoopEvent (Feed.packets UInt8)) :=
  [.key (annAlone []) 0x68, .key (annAlone []) 0x69, .key (annAlone []) 0x0D, .key (annAlone []) 3,
    .key (annAlone []) 0x3A, .key (annAlone []) 0x77, .key (annAlone []) 0x0D]

theorem histories_of_run_ann :
    let effects := heard (loopStep _) (loopEffects _) (.init 24 .en []) annSends
    ∃ s, exec (loopStep _) (.init 24 .en []) annSends = some s ∧
      (s.editor.history = (effects.filterMap KeyOutcome.line).rtake 16 ∧
        s.command.history = (effects.filterMap KeyOutcome.command).rtake 16) ∧
      s.editor.history.map (·.bytes) = [lit "hi"] ∧ s.command.history.map (·.bytes) = [lit "w"] := by
  obtain ⟨s, hs⟩ : ∃ s, exec (loopStep _) (.init 24 .en []) annSends = some s :=
    Option.isSome_iff_exists.1 (by decide)
  have hlines : (exec (loopStep _) (.init 24 .en []) annSends).map (fun s =>
      (s.editor.history.map (·.bytes), s.command.history.map (·.bytes))) = some ([lit "hi"], [lit "w"]) := by
    decide
  rw [hs] at hlines
  obtain ⟨hsent, hran⟩ := Prod.mk.inj (Option.some.inj hlines)
  exact ⟨s, hs, histories_of_run hs, hsent, hran⟩

end Runs

end Tnt
