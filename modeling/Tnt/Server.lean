import Tnt.Board
import Tnt.CommandLine
/-!
# The server as a whole (`input.c`, `commands.c`, `exec.c`, `module_runtime.c`)

A server has its board and its sessions. `serverStep` takes one step of one of its
threads: a key, a command, one critical section of a publication, a line from a
module. Which keys a mode of the screen lets through is left open: any may come at
any time. A session takes no keys while it publishes, and what does not concern
the room and its messages is left out.

`serverStep_board` is what later results use: a step keeps the sessions' invariant
and moves the board by one `boardStep` at most, and what is published is either
clean or an accepted `exec post`.
-/
open BaseLib

namespace Tnt

/-- What a session is at: its name prompt, the room, a single `exec` command, or its end. -/
inductive SessionStage
  | prompt | chat | exec | ended
  deriving DecidableEq

/-- `client_t`, as far as messages depend on it. -/
structure Session where
  stage : SessionStage
  /-- What was typed at the prompt. -/
  typed : CBuf MAX_USERNAME_LEN
  username : CBuf MAX_USERNAME_LEN
  uiLang : UiLang
  insert : Editor MAX_MESSAGE_LEN
  command : Editor MAX_COMMAND_INPUT_LEN
  unreadMentions : Nat

structure ServerConfig where
  /-- Of the ABI. -/
  charSigned : Bool
  /-- `client_capacity` -/
  capacity : Nat
  /-- `g_default_ui_lang` -/
  defaultLang : UiLang
  /-- The names of the modules that were loaded. -/
  modules : List Bytes
  modules_valid : ∀ name ∈ modules, isValidModuleName name = true

structure Server where
  board : Board
  /-- Every session there was, by its number. -/
  sessions : List Session
  /-- `g_room->clients` -/
  room : List Nat
  /-- The message that the modules are being told of. -/
  delivering : Option Message

def Session.init (cfg : ServerConfig) (stage : SessionStage) : Session :=
  ⟨stage, CBuf.copy _ [], CBuf.copy _ [], cfg.defaultLang, .init, .init, 0⟩

def Server.create (dir : LogDir) (now : Int) : Server := ⟨.create dir now, [], [], none⟩

section Step
variable (cfg : ServerConfig) (s : Server)

def Server.setSession (i : Nat) (c : Session) : Server := { s with sessions := s.sessions.set i c }

/-- Session `i`, when it waits for a key. -/
def Server.waiting (i : Nat) (stage : SessionStage) : Option Session :=
  s.sessions[i]?.filter fun c => c.stage == stage && !s.board.busy (.session i)

/-- The clients in the room, with their numbers. -/
def Server.clients : List (Nat × Session) := s.room.filterMap fun i => s.sessions[i]?.map (i, ·)

/-- The names of the clients in the room. -/
def Server.roomNames : List (CBuf MAX_USERNAME_LEN) := s.clients.map (·.2.username)

def Server.onBoard (e : BoardEvent) : Option Server :=
  (boardStep cfg.charSigned (cfg.modules != []) s.board e).map fun b => { s with board := b }

/-- Another client in the room has the name. -/
def Server.taken (i : Nat) (name : CBuf MAX_USERNAME_LEN) : Bool :=
  s.clients.any fun (j, c) => j != i && c.username == name

/-- `notify_mentions` -/
def notifyMentions (msg : Message) (sender : Actor) (room : List Nat) (sessions : List Session) : List Session :=
  sessions.mapIdx fun j c =>
    if j ∈ room ∧ Actor.session j ≠ sender ∧ strstr msg.content.bytes (0x40 :: c.username.bytes) = true then
      { c with unreadMentions := c.unreadMentions + 1 }
    else c

/-- `commands_dispatch` for session `i`, whose command line reads `cmd`. -/
def commandsDispatch (i : Nat) (c : Session) (cmd : Bytes) (now : Int) : Option Server :=
  let c := { c with command := (c.command.record (CBuf.copy _ cmd)).clear }
  match commandCatalogMatch cmd with
  | some (.nick, arg) =>
    match validatedName cfg.charSigned arg with
    | .error _ => some (s.setSession i c)
    | .ok name =>
      if name = c.username ∨ s.taken i name = true then some (s.setSession i c)
      else (s.setSession i { c with username := name }).onBoard cfg
        (.start (.session i) (.notice (.nick c.username name) c.uiLang) now)
  | some (.lang, arg) => some (s.setSession i { c with uiLang := (i18nTryParseUiLang arg).getD c.uiLang })
  | _ => some (s.setSession i c)

end Step

inductive ServerEvent
  | connect
  | promptKey (i : Nat) (b : UInt8) (rest : Bytes)
  /-- Enter at the prompt. -/
  | join (i : Nat) (now : Int)
  | insertKey (i : Nat) (key : InsertKey)
  /-- Enter in INSERT mode. -/
  | enter (i : Nat) (now : Int)
  | commandKey (i : Nat) (key : CommandKey)
  /-- Enter in COMMAND mode. -/
  | commandEnter (i : Nat) (now : Int)
  /-- `l` on the help screen. -/
  | helpLang (i : Nat)
  /-- The client is back at the newest messages. -/
  | readMentions (i : Nat)
  /-- The session ends, by `:quit` or otherwise. -/
  | leave (i : Nat) (now : Int)
  /-- `exec post`, of a message that is accepted. -/
  | execPost (sshLogin : CBuf MAX_USERNAME_LEN) (args : Bytes) (now : Int)
  /-- The module runtime takes a message from its queue. -/
  | dequeue
  /-- A module answers with a line that is a message. -/
  | respond (name line : Bytes) (now : Int)
  | save (id : Nat) (env : SaveEnv)
  | broadcast (id : Nat)
  | notify (id : Nat) (alloc : Bool)
  | enqueue (id : Nat) (alloc : Bool)
  | restart (now : Int)

def serverStep (cfg : ServerConfig) (s : Server) : ServerEvent → Option Server
  | .connect => some { s with sessions := s.sessions ++ [Session.init cfg .prompt] }
  | .promptKey i b rest =>
    (s.waiting i .prompt).map fun c => s.setSession i { c with typed := promptByte c.typed b rest }
  | .join i now =>
    (s.waiting i .prompt).bind fun c =>
      let c := { c with username := chooseUsername cfg.charSigned c.typed }
      if s.room.length ≥ cfg.capacity then some (s.setSession i { c with stage := .ended })
      else ({ s.setSession i { c with stage := .chat } with room := s.room ++ [i] }).onBoard cfg
        (.start (.session i) (.notice (.join c.username) c.uiLang) now)
  | .insertKey i key =>
    (s.waiting i .chat).map fun c => s.setSession i { c with insert := insertKey s.roomNames c.username c.insert key }
  | .enter i now =>
    (s.waiting i .chat).bind fun c =>
      if c.insert.input.bytes = [] then some s
      else (s.setSession i { c with insert := (c.insert.record c.insert.input).clear }).onBoard cfg
        (.start (.session i) (.chat (.insert c.username c.insert.input)) now)
  | .commandKey i key =>
    (s.waiting i .chat).map fun c => s.setSession i { c with command := commandKey s.roomNames c.command key }
  | .commandEnter i now =>
    (s.waiting i .chat).bind fun c =>
      let cmd := commandText c.command.input
      if cmd = [] then some (s.setSession i { c with command := c.command.clear })
      else commandsDispatch cfg s i c cmd now
  | .helpLang i => (s.waiting i .chat).map fun c => s.setSession i { c with uiLang := i18nNextUiLang c.uiLang }
  | .readMentions i => (s.waiting i .chat).map fun c => s.setSession i { c with unreadMentions := 0 }
  | .leave i now =>
    (s.waiting i .chat).bind fun c =>
      ({ s.setSession i { c with stage := .ended } with room := s.room.erase i }).onBoard cfg
        (.start (.session i) (.notice (.leave c.username) c.uiLang) now)
  | .execPost sshLogin args now =>
    ({ s with sessions := s.sessions ++ [Session.init cfg .exec] }).onBoard cfg
      (.start (.session s.sessions.length) (.chat (.post sshLogin args)) now)
  | .dequeue =>
    if s.board.busy .moduleWorker then none
    else ({ s with delivering := s.board.queue.head? }).onBoard cfg .dequeue
  | .respond name line now =>
    if s.delivering.isSome ∧ name ∈ cfg.modules then
      s.onBoard cfg (.start .moduleWorker (.chat (.module name line)) now)
    else none
  | .save id env => s.onBoard cfg (.save id env)
  | .broadcast id => s.onBoard cfg (.broadcast id)
  | .notify id alloc =>
    (s.board.pubs.next id .notify).bind fun j =>
      let sessions := if alloc then notifyMentions j.info.msg j.info.actor s.room s.sessions else s.sessions
      ({ s with sessions := sessions }).onBoard cfg (.notify id)
  | .enqueue id alloc => s.onBoard cfg (.enqueue id alloc)
  | .restart now => some (.create s.board.dir now)

/-! ## What the sessions hold -/

/-- Names are valid and no line has a control in it. -/
structure SessionInv (charSigned : Bool) (c : Session) : Prop where
  typed : Plain c.typed.bytes
  username : Plain c.username.bytes
  valid : c.stage = .chat → isValidUsername charSigned c.username.bytes = true
  insert : c.insert.Plain
  command : c.command.Plain

def SessionsInv (cfg : ServerConfig) (s : Server) : Prop := ∀ c ∈ s.sessions, SessionInv cfg.charSigned c

variable {cfg : ServerConfig} {s s' : Server} {i : Nat} {c : Session}

theorem sessionInv_init {stage : SessionStage} (h : stage ≠ .chat) :
    SessionInv cfg.charSigned (Session.init cfg stage) where
  typed := plain_nil.copy _
  username := plain_nil.copy _
  valid hc := absurd hc h
  insert := Editor.plain_init
  command := Editor.plain_init

theorem waiting_some {stage : SessionStage} (h : s.waiting i stage = some c) :
    s.sessions[i]? = some c ∧ c.stage = stage := by
  obtain ⟨hc, hp⟩ := Option.filter_eq_some_iff.1 h
  rw [Bool.and_eq_true, beq_iff_eq] at hp
  exact ⟨hc, hp.1⟩

theorem SessionsInv.waiting (hi : SessionsInv cfg s) {stage : SessionStage} (h : s.waiting i stage = some c) :
    SessionInv cfg.charSigned c := hi c (List.mem_of_getElem? (waiting_some h).1)

theorem SessionsInv.set (hi : SessionsInv cfg s) {c' : Session} (hc : SessionInv cfg.charSigned c') :
    SessionsInv cfg (s.setSession i c') := by
  intro d hd
  rcases List.mem_or_eq_of_mem_set hd with hd | rfl
  · exact hi d hd
  · exact hc

theorem SessionsInv.concat (hi : SessionsInv cfg s) {stage : SessionStage} (h : stage ≠ .chat) :
    ∀ d ∈ s.sessions ++ [Session.init cfg stage], SessionInv cfg.charSigned d := by
  intro d hd
  rcases List.mem_append.1 hd with hd | hd
  · exact hi d hd
  · exact List.mem_singleton.1 hd ▸ sessionInv_init h

theorem SessionsInv.roomNames (hi : SessionsInv cfg s) : ∀ name ∈ s.roomNames, Plain name.bytes := by
  intro name hn
  obtain ⟨⟨j, c⟩, hjc, rfl⟩ := List.mem_map.1 hn
  obtain ⟨j', -, hj'⟩ := List.mem_filterMap.1 hjc
  obtain ⟨c', hc', heq⟩ := Option.map_eq_some_iff.1 hj'
  cases heq
  exact (hi c (List.mem_of_getElem? hc')).username

theorem notifyMentions_inv {sessions : List Session} (h : ∀ c ∈ sessions, SessionInv cfg.charSigned c) (msg : Message)
    (sender : Actor) (room : List Nat) :
    ∀ c ∈ notifyMentions msg sender room sessions, SessionInv cfg.charSigned c := by
  intro c hc
  obtain ⟨j, hj, rfl⟩ := List.mem_mapIdx.1 hc
  have hinv := h _ (List.getElem_mem hj)
  split
  · exact ⟨hinv.typed, hinv.username, hinv.valid, hinv.insert, hinv.command⟩
  · exact hinv

theorem anonymous_plain : Plain anonymous.bytes := by decide +kernel

/-- A chosen name has no control in it when what was typed has none. -/
theorem chooseUsername_plain {typed : CBuf MAX_USERNAME_LEN} (h : Plain typed.bytes) (charSigned : Bool) :
    Plain (chooseUsername charSigned typed).bytes := by
  rcases chooseUsername_cases charSigned typed with he | ⟨-, hpre, -⟩
  · rw [he]
    exact anonymous_plain
  · exact h.subset hpre.subset

theorem validatedName_plain {charSigned : Bool} {arg : Bytes} (h : Plain arg) {name : CBuf MAX_USERNAME_LEN}
    (hn : validatedName charSigned arg = .ok name) : Plain name.bytes := by
  obtain ⟨-, hpre, -⟩ := validatedName_ok hn
  exact h.subset (List.Subset.trans hpre.subset (List.dropWhile_suffix _).subset)

/-! ## What a step does to the board -/

/-- A name that a client in the room can have. -/
def GoodName (charSigned : Bool) (name : CBuf MAX_USERNAME_LEN) : Prop :=
  isValidUsername charSigned name.bytes = true ∧ Plain name.bytes

/-- What the threads other than those of `exec post` publish. -/
def Origin.Clean (charSigned : Bool) : Origin → Prop
  | .chat (.insert username input) => GoodName charSigned username ∧ Plain input.bytes
  | .chat (.post _ _) => False
  | .chat (.module name _) => isValidModuleName name = true
  | .notice (.join username) _ | .notice (.leave username) _ => GoodName charSigned username
  | .notice (.nick oldName newName) _ => GoodName charSigned oldName ∧ GoodName charSigned newName

/-- Where a publication can come from in a step of the server, and a save. -/
def BoardEvent.Of (charSigned : Bool) (e : ServerEvent) : BoardEvent → Prop
  | .start _ origin now =>
    origin.Clean charSigned ∨ ∃ sshLogin args, origin = .chat (.post sshLogin args) ∧ e = .execPost sshLogin args now
  | .save id env => e = .save id env
  | _ => True

theorem onBoard_some {e : BoardEvent} (h : s.onBoard cfg e = some s') :
    ∃ b, boardStep cfg.charSigned (cfg.modules != []) s.board e = some b ∧ s' = { s with board := b } := by
  obtain ⟨b, hb, rfl⟩ := Option.map_eq_some_iff.1 h
  exact ⟨b, hb, rfl⟩

/-- What a step does to the sessions and the board. -/
def StepSpec (cfg : ServerConfig) (s : Server) (e : ServerEvent) (s' : Server) : Prop :=
  SessionsInv cfg s' ∧ (s'.board = s.board ∨ ∃ be : BoardEvent, be.Of cfg.charSigned e ∧
    boardStep cfg.charSigned (cfg.modules != []) s.board be = some s'.board)

theorem stepSpec_quiet {e : ServerEvent} (hi : SessionsInv cfg s') (hb : s'.board = s.board) : StepSpec cfg s e s' :=
  ⟨hi, .inl hb⟩

/-- A step that leaves the sessions in order and then moves the board. -/
theorem stepSpec_onBoard {e : ServerEvent} {t : Server} {be : BoardEvent} (h : t.onBoard cfg be = some s')
    (ht : t.board = s.board) (hi : SessionsInv cfg t) (hbe : be.Of cfg.charSigned e) : StepSpec cfg s e s' := by
  obtain ⟨b, hb, rfl⟩ := onBoard_some h
  exact ⟨hi, .inr ⟨be, hbe, ht ▸ hb⟩⟩

theorem commandsDispatch_spec {e : ServerEvent} (hi : SessionsInv cfg s) (hw : s.waiting i .chat = some c) {cmd : Bytes}
    {now : Int} (hcmd : Plain cmd) (h : commandsDispatch cfg s i c cmd now = some s') : StepSpec cfg s e s' := by
  have hc := hi.waiting hw
  have hgood : GoodName cfg.charSigned c.username := ⟨hc.valid (waiting_some hw).2, hc.username⟩
  have hrec : SessionInv cfg.charSigned { c with command := (c.command.record (CBuf.copy _ cmd)).clear } :=
    ⟨hc.typed, hc.username, hc.valid, hc.insert, (hc.command.record (hcmd.copy _)).clear⟩
  simp only [commandsDispatch] at h
  split at h
  · rename_i arg hmatch
    split at h
    · cases h
      exact stepSpec_quiet (hi.set hrec) rfl
    rename_i name hname
    split at h
    · cases h
      exact stepSpec_quiet (hi.set hrec) rfl
    · have hnew : GoodName cfg.charSigned name :=
        ⟨validatedName_valid hname, validatedName_plain (hcmd.subset (commandCatalogMatch_suffix hmatch).subset) hname⟩
      exact stepSpec_onBoard h rfl (hi.set ⟨hc.typed, hnew.2, fun _ => hnew.1, hc.insert, hrec.command⟩)
        (.inl ⟨hgood, hnew⟩)
  · cases h
    exact stepSpec_quiet (hi.set ⟨hc.typed, hc.username, hc.valid, hc.insert, hrec.command⟩) rfl
  · cases h
    exact stepSpec_quiet (hi.set hrec) rfl

/-- A step keeps the sessions' invariant, and the board stays or takes one step of its own. -/
theorem serverStep_board {e : ServerEvent} (hi : SessionsInv cfg s) (h : serverStep cfg s e = some s') :
    StepSpec cfg s e s' := by
  cases e with
  | connect =>
    cases h
    exact stepSpec_quiet (hi.concat (by decide)) rfl
  | promptKey i b rest =>
    obtain ⟨c, hw, rfl⟩ := Option.map_eq_some_iff.1 h
    have hc := hi.waiting hw
    exact stepSpec_quiet (hi.set ⟨promptByte_plain hc.typed b rest, hc.username, hc.valid, hc.insert, hc.command⟩) rfl
  | join i now =>
    obtain ⟨c, hw, h⟩ := Option.bind_eq_some_iff.1 h
    have hc := hi.waiting hw
    have hname : GoodName cfg.charSigned (chooseUsername cfg.charSigned c.typed) :=
      ⟨chooseUsername_valid _ _, chooseUsername_plain hc.typed _⟩
    dsimp only at h
    -- A full room sends the session away, and no notice is made.
    split at h
    · cases h
      exact stepSpec_quiet (hi.set ⟨hc.typed, hname.2, fun _ => hname.1, hc.insert, hc.command⟩) rfl
    · exact stepSpec_onBoard h rfl (hi.set ⟨hc.typed, hname.2, fun _ => hname.1, hc.insert, hc.command⟩) (.inl hname)
  | insertKey i key =>
    obtain ⟨c, hw, rfl⟩ := Option.map_eq_some_iff.1 h
    have hc := hi.waiting hw
    exact stepSpec_quiet
      (hi.set ⟨hc.typed, hc.username, hc.valid, insertKey_plain hi.roomNames _ hc.insert key, hc.command⟩) rfl
  | enter i now =>
    obtain ⟨c, hw, h⟩ := Option.bind_eq_some_iff.1 h
    have hc := hi.waiting hw
    have hgood : GoodName cfg.charSigned c.username := ⟨hc.valid (waiting_some hw).2, hc.username⟩
    split at h
    · cases h
      exact stepSpec_quiet hi rfl
    · exact stepSpec_onBoard h rfl
        (hi.set ⟨hc.typed, hc.username, hc.valid, (hc.insert.record hc.insert.input).clear, hc.command⟩)
        (.inl ⟨hgood, hc.insert.input⟩)
  | commandKey i key =>
    obtain ⟨c, hw, rfl⟩ := Option.map_eq_some_iff.1 h
    have hc := hi.waiting hw
    exact stepSpec_quiet
      (hi.set ⟨hc.typed, hc.username, hc.valid, hc.insert, commandKey_plain hi.roomNames hc.command key⟩) rfl
  | commandEnter i now =>
    obtain ⟨c, hw, h⟩ := Option.bind_eq_some_iff.1 h
    have hc := hi.waiting hw
    dsimp only at h
    split at h
    · cases h
      exact stepSpec_quiet (hi.set ⟨hc.typed, hc.username, hc.valid, hc.insert, hc.command.clear⟩) rfl
    · exact commandsDispatch_spec hi hw (hc.command.input.subset (commandText_isInfix _).subset) h
  | helpLang i =>
    obtain ⟨c, hw, rfl⟩ := Option.map_eq_some_iff.1 h
    have hc := hi.waiting hw
    exact stepSpec_quiet (hi.set ⟨hc.typed, hc.username, hc.valid, hc.insert, hc.command⟩) rfl
  | readMentions i =>
    obtain ⟨c, hw, rfl⟩ := Option.map_eq_some_iff.1 h
    have hc := hi.waiting hw
    exact stepSpec_quiet (hi.set ⟨hc.typed, hc.username, hc.valid, hc.insert, hc.command⟩) rfl
  | leave i now =>
    obtain ⟨c, hw, h⟩ := Option.bind_eq_some_iff.1 h
    have hc := hi.waiting hw
    exact stepSpec_onBoard h rfl (hi.set ⟨hc.typed, hc.username, nofun, hc.insert, hc.command⟩)
      (.inl ⟨hc.valid (waiting_some hw).2, hc.username⟩)
  | execPost sshLogin args now =>
    exact stepSpec_onBoard h rfl (hi.concat (by decide)) (.inr ⟨_, _, rfl, rfl⟩)
  | dequeue =>
    rw [serverStep, Option.ite_none_left_eq_some] at h
    exact stepSpec_onBoard h.2 rfl hi trivial
  | respond name line now =>
    rw [serverStep, Option.ite_none_right_eq_some] at h
    exact stepSpec_onBoard h.2 rfl hi (.inl (cfg.modules_valid name h.1.2))
  | save id env => exact stepSpec_onBoard h rfl hi rfl
  | broadcast id => exact stepSpec_onBoard h rfl hi trivial
  | notify id alloc =>
    obtain ⟨j, -, h⟩ := Option.bind_eq_some_iff.1 h
    refine stepSpec_onBoard h rfl (fun c hc => ?_) trivial
    dsimp only at hc
    split at hc
    · exact notifyMentions_inv hi _ _ _ c hc
    · exact hi c hc
  | enqueue id alloc => exact stepSpec_onBoard h rfl hi trivial
  | restart now =>
    cases h
    exact ⟨fun _ => nofun, .inr ⟨.restart now, trivial, rfl⟩⟩

/-! ## Every reachable state -/

/-- What is not posted by `exec post` is clean. -/
def Origin.Known (charSigned : Bool) (origin : Origin) : Prop :=
  origin.Clean charSigned ∨ ∃ sshLogin args, origin = .chat (.post sshLogin args)

structure ServerInv (cfg : ServerConfig) (s : Server) : Prop where
  sessions : SessionsInv cfg s
  board : BoardInv cfg.charSigned s.board
  origins : ∀ j ∈ s.board.pubs.jobs, j.info.origin.Known cfg.charSigned

theorem serverInv_create (cfg : ServerConfig) (dir : LogDir) (now : Int) : ServerInv cfg (.create dir now) :=
  ⟨fun _ => nofun, boardInv_create _ dir now, fun _ => nofun⟩

/-- What a step of the board leaves of a property of origins. -/
theorem boardStep_origins {charSigned running : Bool} {b b' : Board} {be : BoardEvent} {P : Origin → Prop}
    (h : boardStep charSigned running b be = some b') (hP : ∀ j ∈ b.pubs.jobs, P j.info.origin)
    (hbe : ∀ actor origin now, be = .start actor origin now → (origin.message charSigned now).isSome → P origin) :
    ∀ j ∈ b'.pubs.jobs, P j.info.origin := by
  have hset {id : Nat} {j : Job Publication PubStep} {k : PubStep} (hj : b.pubs.next id k = some j)
      (todo : List PubStep) : ∀ j' ∈ b.pubs.jobs.set id { j with todo := todo }, P j'.info.origin :=
    Jobs.forall_info_set (P := fun p => P p.origin) hP (Jobs.next_some hj).1 todo
  cases boardStep_effect h with
  | @started actor origin now msg hidle hmsg =>
    intro j hj
    rcases List.mem_append.1 hj with hj | hj
    · exact hP j hj
    · exact List.mem_singleton.1 hj ▸ hbe actor origin now rfl (by rw [hmsg]; rfl)
  | saved hj => exact hset hj _
  | unsaved hj => exact hset hj _
  | shown hj => exact hset hj _
  | passed _ hj => exact hset hj _
  | dequeued => exact hP
  | restarted => exact fun _ => nofun

theorem serverInv_step {e : ServerEvent} (hi : ServerInv cfg s) (h : serverStep cfg s e = some s') :
    ServerInv cfg s' := by
  obtain ⟨hs, hb | ⟨be, hbe, hb⟩⟩ := serverStep_board hi.sessions h
  · exact ⟨hs, hb ▸ hi.board, hb ▸ hi.origins⟩
  · refine ⟨hs, boardInv_step hi.board hb, @boardStep_origins _ _ _ _ _ (Origin.Known cfg.charSigned) hb hi.origins ?_⟩
    rintro actor origin now rfl -
    exact hbe.imp_right fun ⟨sshLogin, args, ho, _⟩ => ⟨sshLogin, args, ho⟩

/-- A server on a machine where `char` is signed, with room for 64 clients and no modules. -/
def plainConfig : ServerConfig := ⟨true, 64, .en, [], fun _ => nofun⟩

theorem serverInv_of_reachable {dir : LogDir} {now : Int} (h : Reachable (serverStep cfg) (.create dir now) s) :
    ServerInv cfg s :=
  h.inv (ServerInv cfg) (fun _ _ _ hi hstep => serverInv_step hi hstep) (serverInv_create cfg dir now)

end Tnt
