import Tnt.Durability
import Tnt.Server
import Tnt.Terminal
/-!
# Terminal safety of the shared history

Every thread but that of `exec post` publishes messages without controls:
`room_plain` says that the room is free of them, and that what readers see of it is
one line a message, after every run in which each `exec post` names and sends
nothing with a control in it. `postPlain_iff` says that this is also necessary.
-/
open BaseLib

namespace Tnt

/-! ## The log -/

/-- No control but the newlines. -/
def PlainLog (s : Bytes) : Prop := ∀ b ∈ s, (0x20 ≤ b ∧ b ≠ 0x7F) ∨ b = newline

theorem PlainLog.subset {s t : Bytes} (h : PlainLog t) (hst : s ⊆ t) : PlainLog s := fun b hb => h b (hst hb)

theorem PlainLog.append {s t : Bytes} (hs : PlainLog s) (ht : PlainLog t) : PlainLog (s ++ t) :=
  List.forall_mem_append.2 ⟨hs, ht⟩

theorem Plain.plainLog {s : Bytes} (h : Plain s) : PlainLog s := fun b hb => .inl (h b hb)

/-- A record that is read from a log without controls has none. -/
theorem readRound_plain {now : Int} {s : Bytes} (h : PlainLog s) {m : Message}
    (hm : readRound now s = some m) : m.Plain := by
  obtain ⟨hu, hc⟩ := newline_notMem_of_round hm
  simp only [readRound, Option.ite_none_left_eq_some] at hm
  obtain ⟨ts, hline, -⟩ := (parseRecord_iff _ _ _).1 hm.2
  have hlog : PlainLog (cstr (fgets s)) :=
    h.subset (List.Subset.trans (isPrefix_cstr (fgets s)).subset (isPrefix_fgets s).subset)
  rw [hline] at hlog
  constructor
  · exact fun b hb => (hlog b (by simp [hb])).resolve_right fun he => hu (he ▸ hb)
  · exact fun b hb => (hlog b (by simp [hb])).resolve_right fun he => hc (he ▸ hb)

theorem acceptedRecords_plain {now : Int} {file : Bytes} (h : PlainLog file) :
    ∀ m ∈ acceptedRecords now file, m.Plain := by
  intro m hm
  obtain ⟨piece, hpiece, hround⟩ := List.mem_filterMap.1 hm
  refine readRound_plain (h.subset fun b hb => ?_) hround
  rw [← @cut_flatten _ roundLen file]
  exact List.mem_flatten.2 ⟨piece, hpiece, hb⟩

theorem messageLoad_plain {dir : LogDir} (h : PlainLog dir.contents) (maxMessages : Nat) (now : Int) :
    ∀ m ∈ messageLoad dir maxMessages now, m.Plain := by
  unfold messageLoad
  split
  · exact fun _ => nofun
  rename_i file hfile
  rw [LogDir.contents, hfile, Option.getD_some] at h
  split
  · exact fun _ => nofun
  · exact fun m hm => acceptedRecords_plain (h.subset (List.drop_suffix _ _).subset) m (List.mem_of_mem_take hm)

theorem recordText_plainLog {m : Message} (h : m.Plain) : PlainLog (recordText (safeMsg m)) := by
  have hmap {s : Bytes} {f : UInt8 → UInt8} (hs : Plain s) (hf : ∀ b, 0x20 ≤ b ∧ b ≠ 0x7F → 0x20 ≤ f b ∧ f b ≠ 0x7F) :
      Plain (s.map f) := by
    intro b hb
    obtain ⟨c, hc, rfl⟩ := List.mem_map.1 hb
    exact hf c (hs c hc)
  have huser : Plain (safeMsg m).username.bytes := hmap h.username (forall_byte (by decide +kernel))
  have hcontent : Plain (safeMsg m).content.bytes := hmap h.content (forall_byte (by decide +kernel))
  have hfields : Plain (messageLogFormatTimestampUtc m.timestamp ++ bar :: (safeMsg m).username.bytes ++
      bar :: (safeMsg m).content.bytes) :=
    plain_append.2 ⟨plain_append.2 ⟨plain_timestamp _, plain_cons.2 ⟨by decide, huser⟩⟩,
      plain_cons.2 ⟨by decide, hcontent⟩⟩
  exact hfields.plainLog.append fun b hb => .inr (List.mem_singleton.1 hb)

theorem append_plainLog {dir : LogDir} (h : PlainLog dir.contents) {bytes : Bytes} (hb : PlainLog bytes)
    (renames : Bool) :
    PlainLog (dir.append bytes renames).contents := by
  rw [contents_append]
  split
  · exact fun _ => nofun
  · exact h.append hb

/-- Whatever comes of a save, it leaves no control in the log. -/
theorem messageSave_plainLog {dir : LogDir} (h : PlainLog dir.contents) {m : Message} (hm : m.Plain) (env : SaveEnv) :
    PlainLog (messageSave m env dir).2.contents := by
  have hformat {size : Nat} {record : Bytes} (hr : messageLogFormatRecord (safeMsg m) size = some record) :
      PlainLog record := by
    rw [messageLogFormatRecord, Option.ite_none_right_eq_some, Option.some.injEq] at hr
    exact hr.2 ▸ recordText_plainLog hm
  have hnil : PlainLog [] := fun _ => nofun
  unfold messageSave
  split
  · exact h
  · exact h
  · split
    · exact append_plainLog h hnil _
    · rename_i record hr
      exact append_plainLog h ((hformat hr).subset (List.take_subset _ _)) _
  · split
    · exact append_plainLog h hnil _
    · rename_i record hr
      exact append_plainLog h (hformat hr) _

/-! ## Composing -/

/-- The part of a user's text that goes out. -/
def keptText (author text : Bytes) : Bytes :=
  match actionText text with
  | some t => t.take (MAX_MESSAGE_LEN - 2 - author.length)
  | none => text

theorem composeUserMessage_plain_iff (now : Int) (author : CBuf MAX_USERNAME_LEN) {text : Bytes} (h0 : 0 ∉ text)
    (hlen : text.length < MAX_MESSAGE_LEN) :
    (composeUserMessage now author.bytes text).Plain ↔ Plain author.bytes ∧ Plain (keptText author.bytes text) := by
  have hfields (m : Message) : m.Plain ↔ Plain m.username.bytes ∧ Plain m.content.bytes :=
    ⟨fun h => ⟨h.username, h.content⟩, fun h => ⟨h.1, h.2⟩⟩
  rw [hfields, keptText]
  rcases ha : actionText text with _ | t
  · obtain ⟨hu, hc⟩ := composeUserMessage_text now author ha h0 hlen
    rw [hu, hc]
  · obtain ⟨hu, hc⟩ := composeUserMessage_action now author ha h0
    rw [hu, hc, and_iff_right (by decide), plain_append, plain_cons,
      and_iff_right (by decide : (0x20 : UInt8) ≤ 0x20 ∧ _)]

/-- An `exec post` that names and sends nothing with a control in it. -/
def PostPlain (charSigned : Bool) (sshLogin : CBuf MAX_USERNAME_LEN) (args : Bytes) : Prop :=
  let author := (resolveExecUsername charSigned sshLogin).bytes
  Plain author ∧ Plain (keptText author (trimAsciiWhitespace args))

instance (charSigned : Bool) (sshLogin : CBuf MAX_USERNAME_LEN) (args : Bytes) :
    Decidable (PostPlain charSigned sshLogin args) := inferInstanceAs (Decidable (_ ∧ _))

/-- The message of a post is without controls in no other case. -/
theorem postPlain_iff {charSigned : Bool} {now : Int} {sshLogin : CBuf MAX_USERNAME_LEN} {args : Bytes} {msg : Message}
    (h : (Origin.chat (.post sshLogin args)).message charSigned now = some msg) :
    msg.Plain ↔ PostPlain charSigned sshLogin args := by
  obtain ⟨rfl, h0, hlen⟩ := userText_message rfl h
  exact composeUserMessage_plain_iff now _ h0 hlen

theorem keptText_subset (author text : Bytes) : keptText author text ⊆ text := by
  unfold keptText
  split
  · rename_i t ht
    simp only [actionText, Option.ite_none_right_eq_some, Option.some.injEq] at ht
    exact ht.2 ▸ ((List.take_sublist _ _).trans (List.drop_sublist _ _)).subset
  · exact List.Subset.refl _

theorem moduleSender_plain {name : Bytes} (h : isValidModuleName name = true) : Plain (moduleSender name) := by
  refine plain_append.2 ⟨by decide, fun b hb => ?_⟩
  have := (isValidModuleName_spec h).2 b (List.mem_of_mem_take hb)
  simp only [UInt8.le_iff_toNat_le, UInt8.reduceToNat, ne_eq, ← UInt8.toNat_inj] at this ⊢
  omega

theorem systemMessageMake_plain (now : Int) {what : Notice} {lang : UiLang} (h : Plain (what.text lang)) :
    (systemMessageMake now what lang).Plain :=
  ⟨Plain.copy (by cases lang <;> decide) _, h.copy _⟩

/-- What is clean is without controls when it is composed. -/
theorem Origin.Clean.plain {charSigned : Bool} {origin : Origin} (h : origin.Clean charSigned) {now : Int}
    {msg : Message}
    (hm : origin.message charSigned now = some msg) : msg.Plain := by
  match origin, h with
  | .chat (.insert username input), h =>
    obtain ⟨rfl, h0, hlen⟩ := userText_message rfl hm
    exact (composeUserMessage_plain_iff now _ h0 hlen).2 ⟨h.1.2, h.2.subset (keptText_subset _ _)⟩
  | .chat (.module name line), h =>
    simp only [Origin.message, Source.message, composeModule, Option.map_eq_some_iff] at hm
    obtain ⟨text, htext, rfl⟩ := hm
    exact ⟨(moduleSender_plain h).copy _, (parseMessageCreate_spec htext).2.2⟩
  | .notice (.join username) lang, h =>
    exact Option.some.inj hm ▸ systemMessageMake_plain now (Notice.text_plain h.2)
  | .notice (.leave username) lang, h =>
    exact Option.some.inj hm ▸ systemMessageMake_plain now (Notice.text_plain h.2)
  | .notice (.nick oldName newName) lang, h =>
    exact Option.some.inj hm ▸ systemMessageMake_plain now (Notice.text_plain ⟨h.1.2, h.2.2⟩)

/-! ## Runs -/

/-- Nothing that was published or logged has a control in it. -/
structure Safe (cfg : ServerConfig) (s : Server) : Prop where
  sessions : SessionsInv cfg s
  pubs : ∀ j ∈ s.board.pubs.jobs, j.info.msg.Plain
  messages : ∀ m ∈ s.board.messages, m.Plain
  log : PlainLog s.board.dir.contents

/-- The step is no `exec post` with a control in its name or text. -/
def PostsPlain (cfg : ServerConfig) (_ : Server) : ServerEvent → Prop
  | .execPost sshLogin args _ => PostPlain cfg.charSigned sshLogin args
  | _ => True

variable {cfg : ServerConfig} {s s' : Server}

theorem safe_create (cfg : ServerConfig) {dir : LogDir} (h : PlainLog dir.contents) (now : Int) :
    Safe cfg (.create dir now) :=
  ⟨fun _ => nofun, fun _ => nofun, messageLoad_plain h _ now, h⟩

theorem roomAddMessage_subset (messages : List Message) (msg : Message) :
    ∀ m ∈ roomAddMessage messages msg, m ∈ messages ∨ m = msg := by
  intro m hm
  unfold roomAddMessage at hm
  split at hm
  · rcases List.mem_append.1 hm with hm | hm
    · exact .inl (List.mem_of_mem_drop (List.mem_of_mem_take hm))
    · exact .inr (List.mem_singleton.1 hm)
  · rcases List.mem_append.1 hm with hm | hm
    · exact .inl hm
    · exact .inr (List.mem_singleton.1 hm)

theorem safe_step {e : ServerEvent} (hi : Safe cfg s) (he : PostsPlain cfg s e) (h : serverStep cfg s e = some s') :
    Safe cfg s' := by
  obtain ⟨hs, hb | ⟨be, hbe, hb⟩⟩ := serverStep_board hi.sessions h
  · exact ⟨hs, hb ▸ hi.pubs, hb ▸ hi.messages, hb ▸ hi.log⟩
  have hmsg {id : Nat} {j : Job Publication PubStep} {k : PubStep} (hj : s.board.pubs.next id k = some j) :
      j.info.msg.Plain := hi.pubs j (List.mem_of_getElem? (Jobs.next_some hj).1)
  have hset {id : Nat} {j : Job Publication PubStep} {k : PubStep} (hj : s.board.pubs.next id k = some j)
      (todo : List PubStep) : ∀ j' ∈ s.board.pubs.jobs.set id { j with todo := todo }, j'.info.msg.Plain :=
    Jobs.forall_info_set (P := fun p => p.msg.Plain) hi.pubs (Jobs.next_some hj).1 todo
  suffices hboard : (∀ j ∈ s'.board.pubs.jobs, j.info.msg.Plain) ∧ (∀ m ∈ s'.board.messages, m.Plain) ∧
      PlainLog s'.board.dir.contents from ⟨hs, hboard.1, hboard.2.1, hboard.2.2⟩
  generalize s'.board = b at hb
  cases boardStep_effect hb with
  | started hidle hm =>
    refine ⟨?_, hi.messages, hi.log⟩
    intro j hj
    rcases List.mem_append.1 hj with hj | hj
    · exact hi.pubs j hj
    · rw [List.mem_singleton.1 hj]
      rcases hbe with hclean | ⟨sshLogin, args, rfl, rfl⟩
      · exact hclean.plain hm
      · exact (postPlain_iff hm).2 he
  | @saved id env j dir hj hsave =>
    have hlog := messageSave_plainLog hi.log (hmsg hj) env
    rw [hsave] at hlog
    exact ⟨hset hj _, hi.messages, hlog⟩
  | @unsaved id env j rc dir hj hrc hsave =>
    have hlog := messageSave_plainLog hi.log (hmsg hj) env
    rw [hsave] at hlog
    exact ⟨hset hj _, hi.messages, hlog⟩
  | shown hj =>
    refine ⟨hset hj _, ?_, hi.log⟩
    intro m hm
    rcases roomAddMessage_subset _ _ m hm with hm | rfl
    · exact hi.messages m hm
    · exact hmsg hj
  | passed _ hj => exact ⟨hset hj _, hi.messages, hi.log⟩
  | dequeued => exact ⟨hi.pubs, hi.messages, hi.log⟩
  | restarted now => exact ⟨fun _ => nofun, messageLoad_plain hi.log _ now, hi.log⟩

/-- What readers see of the messages is the server's and theirs to read: no author controls a terminal. -/
structure TerminalSafe (messages : List Message) : Prop where
  plain : ∀ m ∈ messages, m.Plain
  /-- On the screen a message is one line, and its text is styled by the server alone. -/
  drawn : ∀ m ∈ messages, ∀ hour minute width myUsername,
    (∀ t, .text t ∈ formatMessageColored m hour minute width myUsername → Plain t) ∧
    ∀ code ∈ themeCodes, ∀ b ∈ (formatMessageColored m hour minute width myUsername).flatMap (Piece.bytes code),
      b ≠ newline ∧ b ≠ 0x0D
  /-- `exec tail` prints a line of three fields for each of the newest messages. -/
  tail : (∀ m ∈ messages, FourDigitYear m.timestamp) → ∀ args out, execCommandTail messages args = some out →
    ∃ snapshot, snapshot <:+ messages ∧ out = (snapshot.map tailRow).flatten ∧
      ∀ m ∈ snapshot, ThreeFields (tailRow m)

/-- From an empty log, and through any run in which no `exec post` has a control in its name or text, the
room stays safe. -/
theorem room_plain (cfg : ServerConfig) (now : Int) (es : List ServerEvent) (s : Server)
    (hm : Meets (serverStep cfg) (PostsPlain cfg) (.create ⟨none, none⟩ now) es)
    (h : exec (serverStep cfg) (.create ⟨none, none⟩ now) es = some s) : TerminalSafe s.board.messages := by
  have hempty : PlainLog (⟨none, none⟩ : LogDir).contents := fun _ => nofun
  have hsafe : Safe cfg s :=
    exec_inv_of_meets (Safe cfg) (fun _ _ _ hi he hs => safe_step hi he hs) (safe_create cfg hempty now) hm h
  refine ⟨hsafe.messages, fun m hmem hour minute width myUsername => ?_, fun hyear args out hout => ?_⟩
  · have hplain := hsafe.messages m hmem
    exact ⟨formatMessageColored_plain hplain hour minute width myUsername,
      fun code hcode => formatMessageColored_oneLine hplain hour minute width myUsername hcode⟩
  · obtain ⟨snapshot, hsuf, hrows⟩ := execCommandTail_eq hyear hout
    exact ⟨snapshot, hsuf, hrows, fun m hmem => tailRow_threeFields (hsafe.messages m (hsuf.subset hmem))⟩

/-- `exec post`, saved and shown. -/
def postRun (args : Bytes) : List ServerEvent :=
  [.execPost (CBuf.copy _ (lit "bob")) args 1752500000, .save 0 (.written true), .broadcast 0]

theorem room_plain_hi :
    ∃ s, exec (serverStep plainConfig) (.create ⟨none, none⟩ 1752500000) (postRun (lit "hi")) = some s ∧
      TerminalSafe s.board.messages := by
  have hsome : (exec (serverStep plainConfig) (.create ⟨none, none⟩ 1752500000) (postRun (lit "hi"))).isSome =
    true := by
    decide
  obtain ⟨s, hs⟩ := Option.isSome_iff_exists.1 hsome
  refine ⟨s, hs, room_plain plainConfig 1752500000 (postRun (lit "hi")) s ?_ hs⟩
  exact ⟨(by decide : PostPlain true _ _), fun _ _ => ⟨trivial, fun _ _ => ⟨trivial, fun _ _ => trivial⟩⟩⟩

/-- A text that clears the screen, with a tab and a newline behind. -/
def escapeText : Bytes := esc :: lit "[2Jhi\tthere\nbye"

/-- It comes into the room as it is, and `exec tail` prints it on two lines, with a tab more. -/
theorem room_escape :
    ∃ s, exec (serverStep plainConfig) (.create ⟨none, none⟩ 1752500000) (postRun escapeText) = some s ∧
      (∃ m ∈ s.board.messages, esc ∈ m.content.bytes) ∧
      ∃ out ∈ execCommandTail s.board.messages [], out.count newline = 2 ∧ out.count 0x09 = 3 := by
  have hsome : (exec (serverStep plainConfig) (.create ⟨none, none⟩ 1752500000) (postRun escapeText)).any (fun s =>
      decide ((∃ m ∈ s.board.messages, esc ∈ m.content.bytes) ∧
        ∃ out ∈ execCommandTail s.board.messages [], out.count newline = 2 ∧ out.count 0x09 = 3)) = true := by
    decide
  obtain ⟨s, hs, hp⟩ := (Option.any_eq_true _ _).1 hsome
  exact ⟨s, hs, of_decide_eq_true hp⟩

end Tnt
