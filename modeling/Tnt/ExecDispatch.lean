import Tnt.Bootstrap
import Tnt.ExecCatalog
import Tnt.Outbox
import Tnt.Readers
import Tnt.RoomUsers
import Tnt.Terminal
/-!
# The `exec` interface (`exec.c`)

`ssh HOST COMMAND` runs one command and ends with a status: 0 for success, 1 for
an error at run time and 64 for a command that is not used as it should be.
A client that is told 0 was sent the whole answer, 64 means that nothing was
changed, and what a `post` changes is what its status and its answer say.
-/
open BaseLib BaseLib.Json

namespace Tnt

def TNT_DUMP_DEFAULT_RECORDS : Nat := 100
def TNT_DUMP_MAX_RECORDS : Nat := 10000

/-- What an `exec` client asked for. -/
structure ExecRequest where
  lang : UiLang
  sshLogin : CBuf MAX_USERNAME_LEN
  command : CBuf MAX_EXEC_COMMAND_LEN
  tooLong : Bool

/-- What the commands find and change. -/
structure ExecServer where
  dir : LogDir
  room : RoomArrays
  /-- The name of a client. -/
  username : Nat → CBuf MAX_USERNAME_LEN
  /-- The messages that `room_broadcast`, `notify_mentions` and `tnt_module_runtime_publish_message_created` were called
  with. -/
  published : List Message

/-- What a command meets with. -/
structure ExecMoment where
  now : Int
  startTime : Int
  activeConnections : Int32
  /-- There is memory for what a command copies. -/
  alloc : Bool
  /-- `message_dump_text` can read the log, and has memory. -/
  dumps : Bool
  save : SaveEnv

/-- How a command answers. -/
inductive ExecReply
  /-- By `client_send`, and with `TNT_EXIT_ERROR` where it fails. -/
  | send (text : Bytes)
  /-- By `client_printf`, and with this status in any case. -/
  | print (text : Bytes) (status : Nat)
  /-- With nothing. -/
  | nothing

/-! ## The commands -/

/-- `exec_command_help` -/
def execCommandHelp (lang : UiLang) : ExecReply := .send (execCatalogAppendHelp 1024 [] lang)

/-- `exec_command_health` -/
def execCommandHealth : ExecReply := .send (lit "ok\n")

/-- `exec_command_usage` -/
def execCommandUsage (id : ExecCommandId) (lang : UiLang) : ExecReply :=
  .print (execCatalogAppendUsage 128 [] id lang) TNT_EXIT_USAGE

/-- `%d` and `%ld` -/
def intText (n : Int) : Bytes := (if n < 0 then [0x2D] else []) ++ decimal n.natAbs

/-- What `exec_command_stats` counts. -/
structure RoomStats where
  onlineUsers : Int32
  messageCount : Int32
  clientCapacity : Int32
  activeConnections : Int32
  uptimeSeconds : Int64

/-- The formats of `exec_command_stats`, taken apart at their numbers. -/
def statsFormat (json : Bool) : List Bytes :=
  if json then
    [lit "\x7b\"status\":\"ok\",\"online_users\":", lit ",\"message_count\":", lit ",\"client_capacity\":",
      lit ",\"active_connections\":", lit ",\"uptime_seconds\":", lit "\x7d\n"]
  else
    [lit "status ok\nonline_users ", lit "\nmessage_count ", lit "\nclient_capacity ", lit "\nactive_connections ",
      lit "\nuptime_seconds ", lit "\n"]

/-- A format, filled in. -/
def fillIn : List Bytes → List Int → Bytes
  | part :: parts, n :: ns => part ++ intText n ++ fillIn parts ns
  | parts, _ => parts.flatten

/-- What `exec_command_stats` formats, where it fits in its buffer. -/
def statsText (json : Bool) (stats : RoomStats) : Option Bytes :=
  let buffer := fillIn (statsFormat json) [stats.onlineUsers.toInt, stats.messageCount.toInt,
    stats.clientCapacity.toInt, stats.activeConnections.toInt, stats.uptimeSeconds.toInt]
  if buffer.length ≥ 512 then none else some buffer

/-- `parse_dump_count`; 0 is for all. -/
def parseDumpCount (args : Bytes) : Option Nat :=
  if args = [] then some TNT_DUMP_DEFAULT_RECORDS
  else
    let args := args.dropWhile isSpace
    if args = lit "--all" then some 0
    else
      let args := if (lit "-n").isPrefixOf args then (args.drop 2).dropWhile isSpace else args
      match strtol args with
      | none => none
      | some (value, rest) =>
        if !rest.all isSpace then none
        else if value < 1 ∨ value > TNT_DUMP_MAX_RECORDS then none else some value.toNat

/-- The texts that `exec_command_post` answers with. -/
def PostError.reply (lang : UiLang) : PostError → ExecReply
  | .usage => execCommandUsage .post lang
  | .tooLong => .print (i18nString "post: message too long\n" "post: 消息过长\n" lang) TNT_EXIT_USAGE
  | .empty => .print (i18nString "post: message cannot be empty\n" "post: 消息不能为空\n" lang) TNT_EXIT_USAGE
  | .invalidUtf8 =>
    .print (i18nString "post: invalid UTF-8 input\n" "post: 输入不是有效 UTF-8\n" lang) TNT_EXIT_ERROR

section Commands
variable (charSigned : Bool) (req : ExecRequest) (t : ExecMoment) (srv : ExecServer)

/-- `exec_command_users` -/
def usersReply (json : Bool) : ExecReply :=
  if t.alloc then .send (execCommandUsers srv.room srv.username json)
  else .print (lit "users: out of memory\n") TNT_EXIT_ERROR

/-- `exec_command_stats` -/
def statsReply (json : Bool) : ExecReply :=
  let uptimeSeconds := if t.startTime > 0 ∧ t.now ≥ t.startTime then t.now - t.startTime else 0
  match statsText json ⟨.ofNat srv.room.clientCount, .ofNat srv.room.messageCount, .ofNat srv.room.clientCapacity,
      t.activeConnections, .ofInt uptimeSeconds⟩ with
  | none => .print (lit "stats: output overflow\n") TNT_EXIT_ERROR
  | some text => .send text

/-- `exec_command_tail` -/
def tailReply (args : Option Bytes) : ExecReply :=
  match execCommandTail srv.room.shown (args.getD []) with
  | none => execCommandUsage .tail req.lang
  | some text => if t.alloc then .send text else .print (lit "tail: out of memory\n") TNT_EXIT_ERROR

/-- `exec_command_dump` -/
def dumpReply (args : Option Bytes) : ExecReply :=
  match parseDumpCount (args.getD []) with
  | none => execCommandUsage .dump req.lang
  | some requested =>
    if t.dumps then .send (messageDumpText srv.dir requested t.now)
    else .print (lit "dump: failed to read message log\n") TNT_EXIT_ERROR

/-- `exec_command_post` -/
def execCommandPost (args : Option Bytes) : ExecReply × ExecServer :=
  match composePost charSigned t.now req.sshLogin (args.getD []) with
  | .error e => (e.reply req.lang, srv)
  | .ok msg =>
    let (rc, dir) := messageSave msg t.save srv.dir
    if rc < 0 then
      (.print (i18nString "post: failed to persist message\n" "post: 消息持久化失败\n" req.lang) TNT_EXIT_ERROR,
        { srv with dir })
    else (.send (lit "posted\n"), { srv with dir, room := srv.room.broadcast msg, published := srv.published ++ [msg] })

/-- `exec_dispatch` -/
def execDispatch : ExecReply × ExecServer :=
  if req.tooLong then (.print (i18nString "exec: command too long\n" "exec: 命令过长\n" req.lang) TNT_EXIT_USAGE, srv)
  else
    let command := trimAsciiWhitespace req.command.bytes
    if command = [] then (execCommandHelp req.lang, srv)
    else
      match execCatalogMatch command with
      | some (id, args) =>
        if !execCatalogArgsValid id args then (execCommandUsage id req.lang, srv)
        else
          match id with
          | .help => (execCommandHelp req.lang, srv)
          | .health => (execCommandHealth, srv)
          | .users => (usersReply t srv args.isSome, srv)
          | .stats => (statsReply t srv args.isSome, srv)
          | .tail => (tailReply req t srv args, srv)
          | .dump => (dumpReply req t srv args, srv)
          | .post => execCommandPost charSigned req t srv args
          | .exit => (.nothing, srv)
      | none =>
        let name := command.takeWhile (!isSpace ·)
        (.print (i18nString "Unknown command: " "未知命令: " req.lang ++ name ++ [newline]) TNT_EXIT_USAGE, srv)

end Commands

/-- `client_printf` -/
def clientPrintf (c : ClientOutput) (text : Bytes) (alloc : Bool) (rounds : List ChannelRound) : Int × ClientOutput :=
  if text.length ≥ 2048 then (-1, c) else clientSend c text alloc rounds

/-- The status of a command, once its answer is sent or is not. -/
def ExecReply.sent (c : ClientOutput) (alloc : Bool) (rounds : List ChannelRound) : ExecReply → Nat × ClientOutput
  | .send text =>
    let (rc, c) := clientSend c text alloc rounds
    (if rc = 0 then TNT_EXIT_OK else TNT_EXIT_ERROR, c)
  | .print text status => (status, (clientPrintf c text alloc rounds).2)
  | .nothing => (TNT_EXIT_OK, c)

/-- `input_run_session`, for an `exec` client: the status it ends with. -/
def execSession (charSigned : Bool) (req : ExecRequest) (t : ExecMoment) (rounds : List ChannelRound)
    (srv : ExecServer) : (Nat × ClientOutput) × ExecServer :=
  let (reply, srv) := execDispatch charSigned req t srv
  (reply.sent (.create true req.command.bytes req.tooLong) t.alloc rounds, srv)

/-! ## What a status says -/

/-- The answer of a command that succeeds. -/
def ExecReply.answer : ExecReply → Option Bytes
  | .send text => some text
  | .print _ _ => none
  | .nothing => some []

/-- The status of an answer is 0 only where it went out whole. -/
theorem ExecReply.sent_ok {c c' : ClientOutput} (hc : ExecInv c) {alloc : Bool} {rounds : List ChannelRound}
    {reply : ExecReply} {status : Nat} (hstatus : ∀ text, reply ≠ .print text TNT_EXIT_OK)
    (h : reply.sent c alloc rounds = (status, c')) (hok : status = TNT_EXIT_OK) :
    ∃ text, reply.answer = some text ∧ c'.wire = c.wire ++ text := by
  cases reply with
  | send text =>
    rcases hsend : clientSend c text alloc rounds with ⟨rc, d⟩
    simp only [sent, hsend, Prod.mk.injEq] at h
    obtain ⟨rfl, rfl⟩ := h
    refine ⟨text, rfl, (hc.send hsend).2 ?_⟩
    by_contra hrc
    rw [if_neg hrc] at hok
    exact absurd hok (by decide)
  | print text code =>
    simp only [sent, Prod.mk.injEq] at h
    exact absurd (congrArg (ExecReply.print text) (h.1.trans hok)) (hstatus text)
  | nothing =>
    simp only [sent, Prod.mk.injEq] at h
    exact ⟨[], rfl, by rw [← h.2, List.append_nil]⟩

theorem ExecReply.sent_answer {c c' : ClientOutput} {alloc : Bool} {rounds : List ChannelRound} {reply : ExecReply}
    {text : Bytes} {status : Nat} (hanswer : reply.answer = some text) (h : reply.sent c alloc rounds = (status, c')) :
    status = TNT_EXIT_OK ∨ status = TNT_EXIT_ERROR := by
  have hstatus : status = (reply.sent c alloc rounds).1 := by rw [h]
  cases reply with
  | send text =>
    rw [hstatus]
    dsimp only [sent]
    split
    · exact .inl rfl
    · exact .inr rfl
  | print text code => cases hanswer
  | nothing => exact .inl hstatus

/-- What a command may answer, and what it may have done then. -/
inductive DispatchSpec (charSigned : Bool) (req : ExecRequest) (t : ExecMoment) (srv : ExecServer) :
    ExecReply → ExecServer → Prop
  /-- It answers, and has read. -/
  | read {reply : ExecReply} {text : Bytes} (hanswer : reply.answer = some text) :
    DispatchSpec charSigned req t srv reply srv
  /-- It is not used as it should be, or it cannot read. -/
  | refused {text : Bytes} {status : Nat} (hstatus : status = TNT_EXIT_ERROR ∨ status = TNT_EXIT_USAGE) :
    DispatchSpec charSigned req t srv (.print text status) srv
  /-- A message is not saved. -/
  | unsaved {text : Bytes} {rc : Int} {dir : LogDir} {msg : Message}
    (hsave : messageSave msg t.save srv.dir = (rc, dir)) (hrc : rc ≠ 0) :
    DispatchSpec charSigned req t srv (.print text TNT_EXIT_ERROR) { srv with dir }
  | posted {dir : LogDir} {args : Bytes} {msg : Message} (hreq : req.tooLong = false)
    (hmatch : execCatalogMatch (trimAsciiWhitespace req.command.bytes) = some (.post, some args))
    (hcompose : composePost charSigned t.now req.sshLogin args = .ok msg)
    (hsave : messageSave msg t.save srv.dir = (0, dir)) :
    DispatchSpec charSigned req t srv (.send (lit "posted\n"))
      { srv with dir, room := srv.room.broadcast msg, published := srv.published ++ [msg] }

section Dispatch
variable {charSigned : Bool} {req : ExecRequest} {t : ExecMoment} {srv : ExecServer}

theorem usage_spec (id : ExecCommandId) : DispatchSpec charSigned req t srv (execCommandUsage id req.lang) srv :=
  .refused (.inr rfl)

theorem messageSave_status (msg : Message) (env : SaveEnv) (dir : LogDir) :
    (messageSave msg env dir).1 = 0 ∨ (messageSave msg env dir).1 < 0 := by
  have hneg : (-1 : Int) < 0 := by decide
  unfold messageSave
  cases env with
  | noPath => exact .inr hneg
  | noOpen => exact .inr hneg
  | short n renames =>
    cases messageLogFormatRecord (safeMsg msg) (MAX_USERNAME_LEN + MAX_MESSAGE_LEN + 48) <;> exact .inr hneg
  | written renames =>
    cases messageLogFormatRecord (safeMsg msg) (MAX_USERNAME_LEN + MAX_MESSAGE_LEN + 48) with
    | none => exact .inr hneg
    | some record => exact .inl rfl

theorem post_spec {args : Option Bytes} (hreq : req.tooLong = false)
    (hmatch : execCatalogMatch (trimAsciiWhitespace req.command.bytes) = some (.post, args))
    (hvalid : execCatalogArgsValid .post args = true) :
    DispatchSpec charSigned req t srv (execCommandPost charSigned req t srv args).1
      (execCommandPost charSigned req t srv args).2 := by
  cases args with
  | none => exact absurd hvalid (by decide)
  | some args =>
    unfold execCommandPost
    rw [Option.getD_some]
    cases hcompose : composePost charSigned t.now req.sshLogin args with
    | error e =>
      cases e with
      | invalidUtf8 => exact .refused (.inl rfl)
      | _ => exact .refused (.inr rfl)
    | ok msg =>
      dsimp only
      rcases hsave : messageSave msg t.save srv.dir with ⟨rc, dir⟩
      dsimp only
      split
      · next hrc => exact .unsaved hsave (ne_of_lt hrc)
      · next hrc =>
        have hzero : rc = 0 := by
          have := messageSave_status msg t.save srv.dir
          rw [hsave] at this
          exact this.resolve_right hrc
        exact .posted hreq hmatch hcompose (hzero ▸ hsave)

theorem dispatch_spec : DispatchSpec charSigned req t srv (execDispatch charSigned req t srv).1
    (execDispatch charSigned req t srv).2 := by
  unfold execDispatch
  split
  · exact .refused (.inr rfl)
  next hreq =>
  dsimp only
  split
  · exact .read rfl
  split
  · next id args hmatch =>
    split
    · exact usage_spec id
    next hvalid =>
    rw [Bool.not_eq_true', Bool.not_eq_false] at hvalid
    cases id with
    | help => exact .read rfl
    | health => exact .read rfl
    | users =>
      dsimp only [usersReply]
      split
      · exact .read rfl
      · exact .refused (.inl rfl)
    | stats =>
      dsimp only [statsReply]
      split
      · exact .refused (.inl rfl)
      · exact .read rfl
    | tail =>
      dsimp only [tailReply]
      split
      · exact usage_spec .tail
      split
      · exact .read rfl
      · exact .refused (.inl rfl)
    | dump =>
      dsimp only [dumpReply]
      split
      · exact usage_spec .dump
      split
      · exact .read rfl
      · exact .refused (.inl rfl)
    | post => exact post_spec (Bool.eq_false_iff.2 hreq) hmatch hvalid
    | exit => exact .read rfl
  · exact .refused (.inr rfl)

/-- Whatever a client asks for, however the channel takes what it is sent, and whether a message can be saved or not:
a status is 0, 1 or 64; it is 0 only where the whole answer went out; where it is 64, nothing was changed; and what
is published is one message, saved before, of a `post` that was accepted, whose client was told `posted` if it is
told 0. -/
theorem execSession_status (hexec : req.command.bytes ≠ [] ∨ req.tooLong = true) (rounds : List ChannelRound)
    {status : Nat} {c : ClientOutput} {srv' : ExecServer}
    (h : execSession charSigned req t rounds srv = ((status, c), srv')) :
    (status = TNT_EXIT_OK ∨ status = TNT_EXIT_ERROR ∨ status = TNT_EXIT_USAGE) ∧
    (status = TNT_EXIT_OK → (execDispatch charSigned req t srv).1.answer = some c.wire) ∧
    (status = TNT_EXIT_USAGE → srv' = srv) ∧
    (srv'.published = srv.published ∧ srv'.room = srv.room ∨
      ∃ args msg, execCatalogMatch (trimAsciiWhitespace req.command.bytes) = some (.post, some args) ∧
        composePost charSigned t.now req.sshLogin args = .ok msg ∧ messageSave msg t.save srv.dir = (0, srv'.dir) ∧
        srv'.room = srv.room.broadcast msg ∧ srv'.published = srv.published ++ [msg] ∧
        (status = TNT_EXIT_OK → c.wire = lit "posted\n")) := by
  have hnew : ExecInv (.create true req.command.bytes req.tooLong) := by
    refine ⟨?_, rfl⟩
    rcases hexec with hne | hlong
    · simp [clientIsExec, ClientOutput.create, hne]
    · simp [clientIsExec, ClientOutput.create, hlong]
  have hspec := @dispatch_spec charSigned req t srv
  rcases hdispatch : execDispatch charSigned req t srv with ⟨reply, srv''⟩
  rw [hdispatch] at hspec
  dsimp only at hspec
  simp only [execSession, hdispatch, Prod.mk.injEq] at h
  obtain ⟨hsent, rfl⟩ := h
  have hwhole : ∀ text, reply.answer = some text → status = TNT_EXIT_OK → reply.answer = some c.wire := by
    intro text hanswer hok
    have hprint : ∀ text, reply ≠ .print text TNT_EXIT_OK := by
      rintro text rfl
      cases hanswer
    obtain ⟨text, htext, hwire⟩ := ExecReply.sent_ok hnew hprint hsent hok
    rw [htext, hwire]
    rfl
  cases hspec with
  | read hanswer =>
    have hstatus := ExecReply.sent_answer hanswer hsent
    refine ⟨hstatus.elim .inl (.inr ∘ .inl), hwhole _ hanswer, fun _ => rfl, .inl ⟨rfl, rfl⟩⟩
  | refused hstatus =>
    have hcode : status = _ := (congrArg Prod.fst hsent).symm
    dsimp only [ExecReply.sent] at hcode
    rw [hcode]
    refine ⟨.inr hstatus, fun hok => ?_, fun _ => rfl, .inl ⟨rfl, rfl⟩⟩
    rcases hstatus with rfl | rfl <;> exact absurd hok (by decide)
  | unsaved =>
    have hcode : status = TNT_EXIT_ERROR := (congrArg Prod.fst hsent).symm
    rw [hcode]
    exact ⟨.inr (.inl rfl), fun hok => absurd hok (by decide), fun h => absurd h (by decide), .inl ⟨rfl, rfl⟩⟩
  | posted hreq hmatch hcompose hsave =>
    have hstatus := ExecReply.sent_answer rfl hsent
    refine ⟨hstatus.elim .inl (.inr ∘ .inl), hwhole _ rfl, fun husage => ?_,
      .inr ⟨_, _, hmatch, hcompose, hsave, rfl, rfl, fun hok => ?_⟩⟩
    · rcases hstatus with rfl | rfl <;> exact absurd husage (by decide)
    · exact (Option.some.inj (hwhole _ rfl hok)).symm

end Dispatch

/-- A client of one command, and what it meets with. -/
structure ExecCall where
  req : ExecRequest
  t : ExecMoment
  rounds : List ChannelRound
  exec : req.command.bytes ≠ [] ∨ req.tooLong = true

/-- Ann posts a line. -/
def annPost (save : SaveEnv) (rounds : List ChannelRound) : ExecCall where
  req := ⟨.en, CBuf.copy _ (lit "ann"), CBuf.copy _ (lit "post  hi "), false⟩
  t := ⟨1752500000, 0, 0, true, true, save⟩
  rounds
  exec := by decide

/-- A server with an empty log. -/
def annServer : ExecServer := ⟨⟨none, none⟩, .create (fun _ => none) ⟨none, none⟩ 0, fun _ => CBuf.copy _ [], []⟩

/-- The answer goes out in two rounds. -/
theorem execSession_status_posted :
    let call := annPost (.written true) [⟨4, 9, false⟩, ⟨9, 9, false⟩]
    ∃ c srv', execSession true call.req call.t call.rounds annServer = ((TNT_EXIT_OK, c), srv') ∧
      (execDispatch true call.req call.t annServer).1.answer = some c.wire ∧ c.wire = lit "posted\n" := by
  intro call
  obtain ⟨⟨⟨status, c⟩, srv'⟩, h⟩ : ∃ r, execSession true call.req call.t call.rounds annServer = r := ⟨_, rfl⟩
  have hcode : (execSession true call.req call.t call.rounds annServer).1.1 = TNT_EXIT_OK := by decide
  have hpublished : (execSession true call.req call.t call.rounds annServer).2.published ≠ annServer.published := by
    decide
  rw [h] at hcode hpublished
  obtain rfl : status = TNT_EXIT_OK := hcode
  obtain ⟨-, hanswer, -, hposted⟩ := execSession_status call.exec call.rounds h
  obtain ⟨-, -, -, -, -, -, -, hwire⟩ := hposted.resolve_left fun h => hpublished h.1
  exact ⟨c, srv', h, hanswer rfl, hwire rfl⟩

/-! ## Runs of clients -/

section Runs
variable (charSigned : Bool)

variable {charSigned} {srv srv' : ExecServer}

end Runs

/-! ## Statistics -/

/-- The counters, by their names. -/
def RoomStats.counters (stats : RoomStats) : List (Bytes × Int) := [
  (lit "online_users", stats.onlineUsers.toInt),
  (lit "message_count", stats.messageCount.toInt),
  (lit "client_capacity", stats.clientCapacity.toInt),
  (lit "active_connections", stats.activeConnections.toInt),
  (lit "uptime_seconds", stats.uptimeSeconds.toInt)]

theorem head_decimal {n : Nat} (h : 0 < n) : (decimal n).head? ≠ some 0x30 := by
  induction n using Nat.strongRecOn with
  | ind n ih =>
    rcases Nat.lt_or_ge n 10 with hn | hn
    · rw [decimal_lt hn]
      intro hzero
      have hdigit := congrArg UInt8.toNat (Option.some.inj hzero)
      rw [toNat_digit, Nat.mod_eq_of_lt hn] at hdigit
      exact absurd hdigit (by simp; omega)
    · rw [decimal_ge hn, List.head?_append_of_ne_nil _ (decimal_ne_nil _)]
      exact ih (n / 10) (by omega) (by omega)

/-- An integer, in JSON. -/
def intNumber (n : Int) : Number where
  minus := n < 0
  int := ⟨decimal n.natAbs, fun _ hc => isDigit_of_mem_decimal hc, decimal_ne_nil _⟩
  noLeadingZero hzero := by
    rcases Nat.eq_zero_or_pos n.natAbs with hn | hn
    · rw [hn]
      rfl
    · exact absurd hzero (head_decimal hn)
  frac := none
  exp := none

/-- What a number without a fraction and an exponent is. -/
def numberInt? (n : Number) : Option Int :=
  if n.frac.isSome ∨ n.exp.isSome then none
  else some (if n.minus then -(digitsVal n.int.bytes : Int) else digitsVal n.int.bytes)

theorem intNumber_render (n : Int) : (intNumber n).render = intText n := by
  simp [intNumber, Number.render, intText]

theorem numberInt?_intNumber (n : Int) : numberInt? (intNumber n) = some n := by
  simp only [numberInt?, intNumber, Option.isSome_none, Bool.false_eq_true, or_self, if_false, digitsVal_decimal,
    decide_eq_true_eq, Option.some.injEq]
  split <;> omega

theorem length_intText_le {n : Int} {k : Nat} (hlo : -(10 ^ (k + 1) : Nat) < n) (hhi : n < (10 ^ (k + 1) : Nat)) :
    (intText n).length ≤ k + 2 := by
  have hdigits := length_decimal_le (n := n.natAbs) (k := k) (by omega)
  unfold intText
  rw [List.length_append]
  split
  · rw [List.length_singleton]
    omega
  · rw [List.length_nil]
    omega

theorem length_int32 (n : Int32) : (intText n.toInt).length ≤ 11 := by
  have hlo := n.le_toInt
  have hhi := n.toInt_lt
  exact length_intText_le (k := 9) (by omega) (by omega)

theorem length_int64 (n : Int64) : (intText n.toInt).length ≤ 20 := by
  have hlo := n.le_toInt
  have hhi := n.toInt_lt
  exact length_intText_le (k := 18) (by omega) (by omega)

/-- The object of `stats --json`. -/
def RoomStats.document (stats : RoomStats) : Document :=
  plainObject (plainMember (lit "status") (.string (unescapedText (lit "ok"))) ::
    stats.counters.map fun (name, n) => plainMember name (.scalar (.number (intNumber n))))

theorem length_fillIn (parts : List Bytes) (ns : List Int) :
    (fillIn parts ns).length ≤ parts.flatten.length + (ns.map fun n => (intText n).length).sum := by
  induction parts generalizing ns with
  | nil =>
    cases ns <;> exact Nat.zero_le _
  | cons part parts ih =>
    cases ns with
    | nil => exact Nat.le_add_right _ _
    | cons n ns =>
      have hrest := ih ns
      simp only [fillIn, List.flatten_cons, List.length_append, List.map_cons, List.sum_cons]
      omega

/-- The statistics fit in the buffer, whatever the counters are. -/
theorem statsText_fits (json : Bool) (stats : RoomStats) :
    statsText json stats = some (fillIn (statsFormat json) (stats.counters.map (·.2))) := by
  have hformat : (statsFormat json).flatten.length ≤ 150 := by
    cases json <;> decide +kernel
  have hlen := length_fillIn (statsFormat json) (stats.counters.map (·.2))
  have hints : ((stats.counters.map (·.2)).map fun n => (intText n).length).sum ≤ 64 := by
    have := length_int32 stats.onlineUsers
    have := length_int32 stats.messageCount
    have := length_int32 stats.clientCapacity
    have := length_int32 stats.activeConnections
    have := length_int64 stats.uptimeSeconds
    simp only [RoomStats.counters, List.map_cons, List.map_nil, List.sum_cons, List.sum_nil]
    omega
  exact if_neg (by
    show ¬ (fillIn (statsFormat json) (stats.counters.map (·.2))).length ≥ 512
    omega)

/-- The object, piece by piece. -/
theorem document_render (stats : RoomStats) :
    stats.document.render ++ [newline] = fillIn (statsFormat true) (stats.counters.map (·.2)) := by
  have hfirst : lit "\x7b\"status\":\"ok\",\"online_users\":" = 0x7B :: quoted (unescapedText (lit "status")) ++
      0x3A :: quoted (unescapedText (lit "ok")) ++ 0x2C :: quoted (unescapedText (lit "online_users")) ++ [0x3A] := by
    decide
  have hcount : lit ",\"message_count\":" = 0x2C :: quoted (unescapedText (lit "message_count")) ++ [0x3A] := by
    decide
  have hcapacity : lit ",\"client_capacity\":" = 0x2C :: quoted (unescapedText (lit "client_capacity")) ++ [0x3A] := by
    decide
  have hactive : lit ",\"active_connections\":" =
      0x2C :: quoted (unescapedText (lit "active_connections")) ++ [0x3A] := by
    decide
  have huptime : lit ",\"uptime_seconds\":" = 0x2C :: quoted (unescapedText (lit "uptime_seconds")) ++ [0x3A] := by
    decide
  have hlast : lit "\x7d\n" = [0x7D, newline] := by decide
  simp only [RoomStats.document, RoomStats.counters, plainObject, plainMember, noBlanks, Document.render, Value.render,
    Scalar.render, renderMembers, Member.render, commas, intNumber_render, List.map_cons, List.map_nil,
    List.flatMap_cons, List.flatMap_nil, statsFormat, if_true, fillIn, List.flatten_cons, List.flatten_nil, hfirst,
    hcount, hcapacity, hactive, huptime, hlast, List.append_assoc, List.cons_append, List.nil_append, List.append_nil]

/-- The counters of `stats` arrive, whatever they are. The answer fits in its buffer; `--json` gives an object with the
status and the counters under their names, and without it there is a line for each of them. -/
theorem stats_faithful (stats : RoomStats) :
    (∃ doc : Document, statsText true stats = some (doc.render ++ [newline]) ∧
      doc.members.length = 6 ∧
      (∃ cs, doc.value? (lit "status") = some (.string cs) ∧ decode cs = some (lit "ok")) ∧
      ∀ counter ∈ stats.counters, ∃ n, doc.value? counter.1 = some (.scalar (.number n)) ∧
        numberInt? n = some counter.2) ∧
    statsText false stats = some (lit "status ok\n" ++ stats.counters.flatMap fun counter =>
      counter.1 ++ [0x20] ++ intText counter.2 ++ [newline]) := by
  refine ⟨⟨stats.document, ?_, rfl, ⟨unescapedText (lit "ok"), ?_, by decide⟩, fun counter hcounter => ?_⟩, ?_⟩
  · rw [statsText_fits, document_render]
  · rfl
  · refine ⟨intNumber counter.2, ?_, numberInt?_intNumber counter.2⟩
    simp only [RoomStats.counters, List.mem_cons, List.not_mem_nil, or_false] at hcounter
    rcases hcounter with rfl | rfl | rfl | rfl | rfl <;> rfl
  · have hfirst : lit "status ok\nonline_users " = lit "status ok\n" ++ (lit "online_users" ++ [0x20]) := by
      decide
    have hcount : lit "\nmessage_count " = newline :: (lit "message_count" ++ [0x20]) := by decide
    have hcapacity : lit "\nclient_capacity " = newline :: (lit "client_capacity" ++ [0x20]) := by decide
    have hactive : lit "\nactive_connections " = newline :: (lit "active_connections" ++ [0x20]) := by decide
    have huptime : lit "\nuptime_seconds " = newline :: (lit "uptime_seconds" ++ [0x20]) := by decide
    have hlast : lit "\n" = [newline] := by decide
    rw [statsText_fits]
    simp only [RoomStats.counters, statsFormat, Bool.false_eq_true, if_false, fillIn, List.map_cons, List.map_nil,
      List.flatten_cons, List.flatten_nil, List.flatMap_cons, List.flatMap_nil, hfirst, hcount, hcapacity, hactive,
      huptime, hlast, List.append_assoc, List.cons_append, List.nil_append, List.append_nil]

end Tnt
