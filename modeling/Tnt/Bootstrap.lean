import Tnt.Common
import Tnt.Connections
/-!
# The bootstrap of a connection (`bootstrap.c`)

libssh calls back whenever a request arrives, in whatever order the peer sends
them, during the key exchange and during every poll. Here a poll is the list of
the callbacks it ran, and how it ended.
-/
open BaseLib

namespace Tnt

def MAX_EXEC_COMMAND_LEN : Nat := 1024
def MAX_ACCESS_TOKEN_LEN : Nat := 256

instance : NeZero MAX_EXEC_COMMAND_LEN := ⟨by decide⟩
instance : NeZero MAX_ACCESS_TOKEN_LEN := ⟨by decide⟩

/-- `session_context_t`; the client's address is left to the counters. -/
structure SessionContext where
  requestedUser : CBuf MAX_USERNAME_LEN
  ptyWidth : Int
  ptyHeight : Int
  execCommand : CBuf MAX_EXEC_COMMAND_LEN
  execCommandTooLong : Bool
  authSuccess : Bool
  authAttempts : Nat
  /-- A shell or exec request was received. -/
  channelReady : Bool
  channel : Option Nat
  /-- The channel has its callbacks. -/
  channelCb : Bool

def SessionContext.init : SessionContext where
  requestedUser := .copy _ []
  ptyWidth := 80
  ptyHeight := 24
  execCommand := .copy _ []
  execCommandTooLong := false
  authSuccess := false
  authAttempts := 0
  channelReady := false
  channel := none
  channelCb := false

/-- `bootstrap_init`: the access token, empty where no authentication is required. -/
def bootstrapInit (tokenEnv : Option Bytes) : CBuf MAX_ACCESS_TOKEN_LEN :=
  match tokenEnv with
  | some token => .copy _ token
  | none => .copy _ []

/-- `constant_time_strcmp` -/
def constantTimeStrcmp (a b : Bytes) : Bool :=
  let lengthDiff := a.length ^^^ b.length
  let byteDiff := (List.range b.length).foldl (fun diff i =>
    let ca := if i < a.length then byteAt a i else 0
    diff ||| (ca ^^^ byteAt b i)) 0
  lengthDiff == 0 && byteDiff == 0

/-! ## The callbacks -/

/-- What an authentication callback tells libssh, and what it does besides. -/
structure AuthReply where
  success : Bool
  /-- `ratelimit_record_auth_failure` is called for the client's address. -/
  recordsFailure : Bool
  /-- `ssh_disconnect` is called. -/
  disconnects : Bool
  deriving DecidableEq

/-- `if (user && user[0] != '\0')`, with which every authentication callback starts. -/
def SessionContext.noteUser (ctx : SessionContext) (user : Option Bytes) : SessionContext :=
  match user with
  | some (b :: bs) => { ctx with requestedUser := .copy _ (b :: bs) }
  | _ => ctx

/-- `auth_password` -/
def authPassword (token : Bytes) (ctx : SessionContext) (user password : Option Bytes) :
    AuthReply × SessionContext :=
  let ctx := ctx.noteUser user
  let ctx := { ctx with authAttempts := ctx.authAttempts + 1 }
  if ctx.authAttempts > 3 then (⟨false, true, true⟩, ctx)
  else if token ≠ [] then
    match password with
    | some password =>
      if constantTimeStrcmp password token then (⟨true, false, false⟩, { ctx with authSuccess := true })
      else (⟨false, true, false⟩, ctx)
    | none => (⟨false, true, false⟩, ctx)
  else (⟨true, false, false⟩, { ctx with authSuccess := true })

/-- `auth_none` -/
def authNone (token : Bytes) (ctx : SessionContext) (user : Option Bytes) : AuthReply × SessionContext :=
  let ctx := ctx.noteUser user
  if token ≠ [] then (⟨false, false, false⟩, ctx)
  else (⟨true, false, false⟩, { ctx with authSuccess := true })

def SSH_PUBLICKEY_STATE_VALID : Int := 1

/-- `auth_pubkey` -/
def authPubkey (token : Bytes) (ctx : SessionContext) (user : Option Bytes) (signatureState : Int) :
    AuthReply × SessionContext :=
  let ctx := ctx.noteUser user
  if token ≠ [] then (⟨false, false, false⟩, ctx)
  -- a key that is only offered is accepted, and authenticates nobody yet
  else if signatureState ≠ SSH_PUBLICKEY_STATE_VALID then (⟨true, false, false⟩, ctx)
  else (⟨true, false, false⟩, { ctx with authSuccess := true })

/-- `sanitize_terminal_size` -/
def sanitizeTerminalSize (width height : Int) : Int × Int :=
  (if width ≤ 0 ∨ width > 500 then 80 else width, if height ≤ 0 ∨ height > 200 then 24 else height)

/-- `channel_open_request_session`; `channel` is what `ssh_channel_new` returned, `cbAlloc`
whether its callbacks could be allocated. -/
def channelOpenRequestSession (ctx : SessionContext) (channel : Option Nat) (cbAlloc : Bool) : SessionContext :=
  match channel with
  | none => ctx
  | some channel => { ctx with channel := some channel, channelCb := cbAlloc }

/-- `channel_pty_request` and `channel_pty_window_change` -/
def channelPtyRequest (ctx : SessionContext) (width height : Int) : SessionContext :=
  let (width, height) := sanitizeTerminalSize width height
  { ctx with ptyWidth := width, ptyHeight := height }

/-- `channel_shell_request` -/
def channelShellRequest (ctx : SessionContext) : SessionContext := { ctx with channelReady := true }

/-- `channel_exec_request` -/
def channelExecRequest (ctx : SessionContext) (command : Option Bytes) : SessionContext :=
  let ctx := match command with
    | some command =>
      if command.length ≥ MAX_EXEC_COMMAND_LEN then
        { ctx with execCommandTooLong := true, execCommand := .copy _ [] }
      else { ctx with execCommand := .copy _ command }
    | none => ctx
  { ctx with channelReady := true }

/-- A call of libssh, with its arguments. -/
inductive Callback
  | authNone (user : Option Bytes)
  | authPassword (user password : Option Bytes)
  | authPubkey (user : Option Bytes) (signatureState : Int)
  | channelOpen (channel : Option Nat) (cbAlloc : Bool)
  | ptyRequest (width height : Int)
  | windowChange (width height : Int)
  | shellRequest
  | execRequest (command : Option Bytes)
  deriving DecidableEq

/-- What a callback leaves behind in the session's context. -/
def callback (token : Bytes) (ctx : SessionContext) : Callback → SessionContext
  | .authNone user => (authNone token ctx user).2
  | .authPassword user password => (authPassword token ctx user password).2
  | .authPubkey user signatureState => (authPubkey token ctx user signatureState).2
  | .channelOpen channel cbAlloc => channelOpenRequestSession ctx channel cbAlloc
  | .ptyRequest width height => channelPtyRequest ctx width height
  | .windowChange width height => channelPtyRequest ctx width height
  | .shellRequest => channelShellRequest ctx
  | .execRequest command => channelExecRequest ctx command

def callbacks (token : Bytes) (ctx : SessionContext) (calls : List Callback) : SessionContext :=
  calls.foldl (callback token) ctx

/-! ## `bootstrap_run` -/

/-- One `ssh_event_dopoll`: the callbacks it ran, whether it returned `SSH_ERROR`, and
`time(NULL) - start_time` behind it. -/
structure Poll where
  calls : List Callback
  error : Bool
  elapsed : Int

/-- The loop finds after this poll that the time is up. -/
def Poll.timesOut (p : Poll) : Bool := !p.error && decide (p.elapsed > 10)

/-- The condition to leave the loop, but for `timed_out`. -/
def SessionContext.isSetUp (ctx : SessionContext) : Bool :=
  ctx.authSuccess && ctx.channel.isSome && ctx.channelReady

/-- The loop of `bootstrap_run`: the context and `timed_out` behind it, or `none` while
it is still waiting. -/
def pollLoop (token : Bytes) : SessionContext → List Poll → Option (SessionContext × Bool)
  | ctx, [] => if ctx.isSetUp then some (ctx, false) else none
  | ctx, p :: ps =>
    if ctx.isSetUp then some (ctx, false)
    else
      let ctx := callbacks token ctx p.calls
      if p.error then some (ctx, false)
      else if p.elapsed > 10 then some (ctx, true)
      else pollLoop token ctx ps

/-- What `bootstrap_run` depends on besides the polls. -/
structure BootstrapEnv where
  /-- `calloc` of the context succeeds. -/
  contextAlloc : Bool
  /-- The callbacks that run during the key exchange. -/
  keyExchangeCalls : List Callback
  keyExchange : Bool
  eventAlloc : Bool
  eventAddSession : Bool
  clientAlloc : Bool
  /-- `client_install_channel_callbacks` succeeds. -/
  installCallbacks : Bool

/-- The fields of `client_t` that `bootstrap_run` fills from the context. -/
structure BootstrapClient where
  channel : Nat
  width : Int
  height : Int
  sshLogin : CBuf MAX_USERNAME_LEN
  execCommand : CBuf MAX_EXEC_COMMAND_LEN
  execCommandTooLong : Bool

inductive Outcome
  /-- The loop has not ended yet. -/
  | waiting
  | failed (x : Exit)
  /-- `input_run_session(client)` -/
  | session (client : BootstrapClient)

/-- `bootstrap_run` behind its loop. -/
def bootstrapFinish (env : BootstrapEnv) (ctx : SessionContext) (timedOut : Bool) : Outcome :=
  if !ctx.authSuccess then .failed .authentication
  else match ctx.channel with
    | none => .failed .channelSetup
    | some channel =>
      if !ctx.channelReady || timedOut then .failed .channelSetup
      else if !env.clientAlloc then .failed .clientAlloc
      else if !env.installCallbacks then .failed .channelCallbacks
      else
        let (width, height) := sanitizeTerminalSize ctx.ptyWidth ctx.ptyHeight
        .session ⟨channel, width, height, ctx.requestedUser, ctx.execCommand, ctx.execCommandTooLong⟩

/-- `bootstrap_run` -/
def bootstrapRun (token : CBuf MAX_ACCESS_TOKEN_LEN) (env : BootstrapEnv) (polls : List Poll) : Outcome :=
  if !env.contextAlloc then .failed .contextAlloc
  else
    let ctx := callbacks token.bytes .init env.keyExchangeCalls
    if !env.keyExchange then .failed .keyExchange
    else if !env.eventAlloc then .failed .eventAlloc
    else if !env.eventAddSession then .failed .eventAddSession
    else match pollLoop token.bytes ctx polls with
      | none => .waiting
      | some (ctx, timedOut) => bootstrapFinish env ctx timedOut

/-! ## The comparison -/

theorem foldl_or_eq_zero (f : Nat → UInt8) (l : List Nat) (z : UInt8) :
    l.foldl (fun diff i => diff ||| f i) z = 0 ↔ z = 0 ∧ ∀ i ∈ l, f i = 0 := by
  induction l generalizing z with
  | nil => simp
  | cons i l ih => simp [ih, and_assoc]

theorem nat_xor_eq_zero {m n : Nat} : m ^^^ n = 0 ↔ m = n := by
  constructor
  · intro h
    apply Nat.eq_of_testBit_eq
    intro i
    have := congrArg (Nat.testBit · i) h
    simpa [Nat.testBit_xor] using this
  · rintro rfl
    exact Nat.xor_self m

/-- Neither a difference in length nor one in a byte is lost on the way. -/
theorem constantTimeStrcmp_iff (a b : Bytes) : constantTimeStrcmp a b = true ↔ a = b := by
  simp only [constantTimeStrcmp, Bool.and_eq_true, beq_iff_eq, nat_xor_eq_zero, foldl_or_eq_zero,
    UInt8.xor_eq_zero_iff, List.mem_range, true_and]
  constructor
  · rintro ⟨hl, hb⟩
    apply List.ext_getElem hl
    intro i ha hb'
    have := hb i hb'
    simpa [ha, hb', byteAt, List.getD_eq_getElem?_getD] using this
  · rintro rfl
    exact ⟨rfl, fun i hi => if_pos hi⟩

/-! ## The invariant of the callbacks -/

/-- The password that a call carries, where it is one of `auth_password`. -/
def Callback.password? : Callback → Option (Option Bytes)
  | authPassword _ password => some password
  | _ => none

/-- The password attempts among some calls, in their order. -/
def passwords (calls : List Callback) : List (Option Bytes) := calls.filterMap Callback.password?

/-- A channel is opened. -/
def Callback.OpensChannel (c : Callback) : Prop := ∃ channel cbAlloc, c = channelOpen (some channel) cbAlloc

/-- A shell or an exec request. -/
def Callback.StartsSession (c : Callback) : Prop := c = shellRequest ∨ ∃ command, c = execRequest command

theorem passwords_concat (calls : List Callback) (c : Callback) :
    passwords (calls ++ [c]) = passwords calls ++ c.password?.toList := by
  cases h : c.password? <;> simp [passwords, h]

/-- What the context says about the calls that led to it, where a token is required. -/
structure CtxInv (token : Bytes) (calls : List Callback) (ctx : SessionContext) : Prop where
  attempts : ctx.authAttempts = (passwords calls).length
  auth : ctx.authSuccess = true → some token ∈ (passwords calls).take 3
  channel : ctx.channel ≠ none → ∃ c ∈ calls, c.OpensChannel
  ready : ctx.channelReady = true → ∃ c ∈ calls, c.StartsSession

theorem ctxInv_init (token : Bytes) : CtxInv token [] .init where
  attempts := rfl
  auth h := by cases h
  channel h := absurd rfl h
  ready h := by cases h

/-- A call that is no password attempt, and leaves alone what authenticates. -/
theorem CtxInv.other {token : Bytes} {calls : List Callback} {ctx ctx' : SessionContext} {c : Callback}
    (hi : CtxInv token calls ctx) (hp : c.password? = none) (ha : ctx'.authAttempts = ctx.authAttempts)
    (hs : ctx'.authSuccess = ctx.authSuccess) (hc : ctx'.channel = ctx.channel ∨ c.OpensChannel)
    (hr : ctx'.channelReady = ctx.channelReady ∨ c.StartsSession) : CtxInv token (calls ++ [c]) ctx' where
  attempts := by simp [passwords_concat, hp, ha, hi.attempts]
  auth h := by simpa [passwords_concat, hp] using hi.auth (hs ▸ h)
  channel h := by
    rcases hc with hc | hc
    · obtain ⟨d, hd, ho⟩ := hi.channel (hc ▸ h)
      exact ⟨d, List.mem_append_left _ hd, ho⟩
    · exact ⟨c, by simp, hc⟩
  ready h := by
    rcases hr with hr | hr
    · obtain ⟨d, hd, ho⟩ := hi.ready (hr ▸ h)
      exact ⟨d, List.mem_append_left _ hd, ho⟩
    · exact ⟨c, by simp, hr⟩

section NoteUser
variable (ctx : SessionContext) (user : Option Bytes)

@[simp] theorem noteUser_attempts : (ctx.noteUser user).authAttempts = ctx.authAttempts := by
  unfold SessionContext.noteUser; split <;> rfl

@[simp] theorem noteUser_success : (ctx.noteUser user).authSuccess = ctx.authSuccess := by
  unfold SessionContext.noteUser; split <;> rfl

@[simp] theorem noteUser_channel : (ctx.noteUser user).channel = ctx.channel := by
  unfold SessionContext.noteUser; split <;> rfl

@[simp] theorem noteUser_ready : (ctx.noteUser user).channelReady = ctx.channelReady := by
  unfold SessionContext.noteUser; split <;> rfl

end NoteUser

/-- What `auth_password` does to the context where a token is required. -/
theorem authPassword_spec {token : Bytes} (ht : token ≠ []) (ctx : SessionContext) (user password : Option Bytes) :
    ∃ ctx', (authPassword token ctx user password).2 = ctx' ∧ ctx'.authAttempts = ctx.authAttempts + 1 ∧
      ctx'.channel = ctx.channel ∧ ctx'.channelReady = ctx.channelReady ∧
      (ctx'.authSuccess = ctx.authSuccess ∨ ctx.authAttempts < 3 ∧ password = some token) := by
  refine ⟨_, rfl, ?_⟩
  simp only [authPassword, noteUser_attempts, if_pos ht]
  by_cases ha : ctx.authAttempts + 1 > 3
  · simp [ha]
  · simp only [if_neg ha]
    cases password with
    | none => simp
    | some password =>
      by_cases hc : constantTimeStrcmp password token = true
      · simp only [hc, if_true, noteUser_channel, noteUser_ready, true_and]
        exact .inr ⟨by omega, congrArg some ((constantTimeStrcmp_iff _ _).1 hc)⟩
      · simp [hc]

theorem CtxInv.password {token : Bytes} (ht : token ≠ []) {calls : List Callback} {ctx : SessionContext}
    (hi : CtxInv token calls ctx) (user password : Option Bytes) :
    CtxInv token (calls ++ [.authPassword user password]) (authPassword token ctx user password).2 := by
  obtain ⟨ctx', hctx, ha, hc, hr, hs⟩ := authPassword_spec ht ctx user password
  rw [hctx]
  have hp : passwords (calls ++ [.authPassword user password]) = passwords calls ++ [password] :=
    passwords_concat _ _
  refine ⟨by simp [hp, ha, hi.attempts], fun h => ?_, fun h => ?_, fun h => ?_⟩
  · rw [hp, List.take_append]
    rcases hs with hs | ⟨hlt, rfl⟩
    · exact List.mem_append_left _ (hi.auth (hs ▸ h))
    · have h1 : 3 - (passwords calls).length = (2 - (passwords calls).length) + 1 := by
        have := hi.attempts
        omega
      rw [h1]
      simp
  · obtain ⟨d, hd, ho⟩ := hi.channel (hc ▸ h)
    exact ⟨d, List.mem_append_left _ hd, ho⟩
  · obtain ⟨d, hd, ho⟩ := hi.ready (hr ▸ h)
    exact ⟨d, List.mem_append_left _ hd, ho⟩

/-- One callback, whichever it is, keeps the invariant. -/
theorem ctxInv_callback {token : Bytes} (ht : token ≠ []) {calls : List Callback} {ctx : SessionContext}
    (hi : CtxInv token calls ctx) (c : Callback) : CtxInv token (calls ++ [c]) (callback token ctx c) := by
  cases c with
  | authNone user =>
    have h : callback token ctx (.authNone user) = ctx.noteUser user := by simp [callback, authNone, ht]
    rw [h]
    exact hi.other rfl (by simp) (by simp) (.inl (by simp)) (.inl (by simp))
  | authPassword user password => exact hi.password ht user password
  | authPubkey user signatureState =>
    have h : callback token ctx (.authPubkey user signatureState) = ctx.noteUser user := by
      simp [callback, authPubkey, ht]
    rw [h]
    exact hi.other rfl (by simp) (by simp) (.inl (by simp)) (.inl (by simp))
  | channelOpen channel cbAlloc =>
    cases channel with
    | none => exact hi.other rfl rfl rfl (.inl rfl) (.inl rfl)
    | some channel => exact hi.other rfl rfl rfl (.inr ⟨channel, cbAlloc, rfl⟩) (.inl rfl)
  | ptyRequest width height => exact hi.other rfl rfl rfl (.inl rfl) (.inl rfl)
  | windowChange width height => exact hi.other rfl rfl rfl (.inl rfl) (.inl rfl)
  | shellRequest => exact hi.other rfl rfl rfl (.inl rfl) (.inr (.inl rfl))
  | execRequest command =>
    have hr : Callback.StartsSession (.execRequest command) := .inr ⟨command, rfl⟩
    cases command with
    | none => exact hi.other rfl rfl rfl (.inl rfl) (.inr hr)
    | some command =>
      by_cases hl : command.length ≥ MAX_EXEC_COMMAND_LEN
      · simp only [callback, channelExecRequest, if_pos hl]
        exact hi.other rfl rfl rfl (.inl rfl) (.inr hr)
      · simp only [callback, channelExecRequest, if_neg hl]
        exact hi.other rfl rfl rfl (.inl rfl) (.inr hr)

theorem ctxInv_callbacks {token : Bytes} (ht : token ≠ []) {calls : List Callback} {ctx : SessionContext}
    (hi : CtxInv token calls ctx) (more : List Callback) : CtxInv token (calls ++ more) (callbacks token ctx more) := by
  induction more generalizing calls ctx with
  | nil => simpa [callbacks] using hi
  | cons c more ih =>
    have := ih (ctxInv_callback ht hi c)
    rwa [List.append_assoc] at this

/-! ## The gate -/

/-- The polls that the loop made, and the context they led to. -/
theorem pollLoop_spec {token : Bytes} (ht : token ≠ []) {polls : List Poll} {calls : List Callback}
    {ctx ctx' : SessionContext} {timedOut : Bool} (hi : CtxInv token calls ctx)
    (h : pollLoop token ctx polls = some (ctx', timedOut)) :
    ∃ seen rest, polls = seen ++ rest ∧ CtxInv token (calls ++ seen.flatMap Poll.calls) ctx' ∧
      (timedOut = false → ∀ p ∈ seen, p.timesOut = false) := by
  induction polls generalizing ctx calls with
  | nil =>
    simp only [pollLoop, Option.ite_none_right_eq_some, Option.some.injEq, Prod.mk.injEq] at h
    obtain ⟨-, rfl, -⟩ := h
    exact ⟨[], [], rfl, by simpa using hi, by simp⟩
  | cons p ps ih =>
    rw [pollLoop] at h
    by_cases hset : ctx.isSetUp = true
    · rw [if_pos hset, Option.some.injEq, Prod.mk.injEq] at h
      obtain ⟨rfl, -⟩ := h
      exact ⟨[], p :: ps, rfl, by simpa using hi, by simp⟩
    · rw [if_neg hset] at h
      have hi' := ctxInv_callbacks ht hi p.calls
      by_cases he : p.error = true
      · rw [if_pos he, Option.some.injEq, Prod.mk.injEq] at h
        obtain ⟨rfl, -⟩ := h
        exact ⟨[p], ps, rfl, by simpa using hi', by simp [Poll.timesOut, he]⟩
      · rw [if_neg he] at h
        by_cases hl : p.elapsed > 10
        · rw [if_pos hl, Option.some.injEq, Prod.mk.injEq] at h
          obtain ⟨rfl, rfl⟩ := h
          exact ⟨[p], ps, rfl, by simpa using hi', by simp⟩
        · rw [if_neg hl] at h
          obtain ⟨seen, rest, rfl, hinv, hto⟩ := ih hi' h
          refine ⟨p :: seen, rest, rfl, by simpa using hinv, fun hf => List.forall_mem_cons.2 ⟨?_, hto hf⟩⟩
          simp [Poll.timesOut, hl]

theorem bootstrapFinish_session {env : BootstrapEnv} {ctx : SessionContext} {timedOut : Bool}
    {client : BootstrapClient} (h : bootstrapFinish env ctx timedOut = .session client) :
    ctx.authSuccess = true ∧ ctx.channel = some client.channel ∧ ctx.channelReady = true ∧ timedOut = false := by
  unfold bootstrapFinish at h
  by_cases ha : ctx.authSuccess = true
  · simp only [ha, Bool.not_true, Bool.false_eq_true, if_false] at h
    cases hc : ctx.channel with
    | none => simp [hc] at h
    | some channel =>
      simp only [hc] at h
      by_cases hr : (!ctx.channelReady || timedOut) = true
      · simp [hr] at h
      · simp only [hr] at h
        by_cases hca : env.clientAlloc = true <;> by_cases hic : env.installCallbacks = true <;>
          simp [hca, hic] at h
        subst h
        simpa [ha] using hr
  · simp [ha] at h

/-- Where an access token is configured, a session starts only behind one of the first three
password attempts that carried it, an opened channel and a shell or exec request, all of
them in polls behind which the time was not up. The comparison accepts the token alone. -/
theorem bootstrapRun_gate (token : CBuf MAX_ACCESS_TOKEN_LEN) (ht : token.bytes ≠ []) (env : BootstrapEnv)
    (polls : List Poll) (client : BootstrapClient) (h : bootstrapRun token env polls = .session client) :
    (∃ seen rest calls, polls = seen ++ rest ∧ (∀ p ∈ seen, p.timesOut = false) ∧
      calls = env.keyExchangeCalls ++ seen.flatMap Poll.calls ∧
      some token.bytes ∈ (passwords calls).take 3 ∧
      (∃ c ∈ calls, c.OpensChannel) ∧ (∃ c ∈ calls, c.StartsSession)) ∧
    ∀ a b, constantTimeStrcmp a b = true ↔ a = b := by
  refine ⟨?_, constantTimeStrcmp_iff⟩
  simp only [bootstrapRun] at h
  by_cases hca : env.contextAlloc = true
  swap
  · simp [hca] at h
  by_cases hke : env.keyExchange = true
  swap
  · simp [hca, hke] at h
  by_cases hea : env.eventAlloc = true
  swap
  · simp [hca, hke, hea] at h
  by_cases hes : env.eventAddSession = true
  swap
  · simp [hca, hke, hea, hes] at h
  simp only [hca, hke, hea, hes, Bool.not_true, Bool.false_eq_true, if_false] at h
  cases hp : pollLoop token.bytes (callbacks token.bytes .init env.keyExchangeCalls) polls with
  | none => simp [hp] at h
  | some end_ =>
    obtain ⟨ctx, timedOut⟩ := end_
    simp only [hp] at h
    obtain ⟨hauth, hchan, hready, hto⟩ := bootstrapFinish_session h
    have hi := ctxInv_callbacks ht (ctxInv_init token.bytes) env.keyExchangeCalls
    rw [List.nil_append] at hi
    obtain ⟨seen, rest, hpolls, hinv, hseen⟩ := pollLoop_spec ht hi hp
    exact ⟨seen, rest, _, hpolls, hseen hto, rfl, hinv.auth hauth, hinv.channel (by simp [hchan]), hinv.ready hready⟩

/-- Nothing fails, and no callback runs during the key exchange. -/
def unhinderedEnv : BootstrapEnv := ⟨true, [], true, true, true, true, true⟩

/-- The channel is opened early, the second password is right, and the shell comes last. -/
def secondTryPolls : List Poll :=
  [⟨[.authNone (some (lit "ann")), .channelOpen (some 1) true, .ptyRequest 0 50], false, 1⟩,
   ⟨[.authPassword none (some (lit "kez")), .authPassword none (some (lit "key"))], false, 4⟩,
   ⟨[.shellRequest], false, 5⟩]

theorem bootstrapRun_gate_secondTry :
    ∃ seen rest calls, secondTryPolls = seen ++ rest ∧ (∀ p ∈ seen, p.timesOut = false) ∧
      calls = seen.flatMap Poll.calls ∧ some (lit "key") ∈ (passwords calls).take 3 ∧
      (∃ c ∈ calls, c.OpensChannel) ∧ (∃ c ∈ calls, c.StartsSession) :=
  (bootstrapRun_gate (bootstrapInit (some (lit "key"))) (by decide) unhinderedEnv secondTryPolls
    ⟨1, 80, 50, .copy _ (lit "ann"), .copy _ [], false⟩ (by rfl)).1

/-! ## The configured token as the password -/

/-- What `auth_password` answers where a token is required, and what an answer of no leaves alone. -/
theorem authPassword_reply {token : Bytes} (ht : token ≠ []) (ctx : SessionContext) (user password : Option Bytes) :
    ((authPassword token ctx user password).1.success = true ↔ ctx.authAttempts < 3 ∧ password = some token) ∧
      ((authPassword token ctx user password).1.success = false →
        (authPassword token ctx user password).1.recordsFailure = true ∧
          (authPassword token ctx user password).2.authSuccess = ctx.authSuccess) := by
  simp only [authPassword, noteUser_attempts, if_pos ht]
  by_cases ha : ctx.authAttempts + 1 > 3
  · have hlate : ¬ ctx.authAttempts < 3 := by omega
    simp [ha, hlate]
  · have hearly : ctx.authAttempts < 3 := by omega
    simp only [if_neg ha, hearly, true_and]
    cases password with
    | none => simp
    | some password =>
      have hcmp := constantTimeStrcmp_iff password token
      by_cases hc : constantTimeStrcmp password token = true
      · simp only [if_pos hc, Option.some.injEq]
        simp [hcmp.1 hc]
      · have hne : password ≠ token := fun h => hc (hcmp.2 h)
        simp only [if_neg hc, Option.some.injEq]
        simp [hne]

/-- The value of `TNT_ACCESS_TOKEN` is the password, and nothing else is: behind any callbacks of a
session, one of its first three passwords is accepted if it is that value, and every other password is
denied, is counted against the address once, and authenticates nobody. -/
def TokenIsPassword (tokenEnv : Bytes) : Prop :=
  ∀ (calls : List Callback) (user password : Option Bytes),
    let token := (bootstrapInit (some tokenEnv)).bytes
    let ctx := callbacks token .init calls
    let answer := authPassword token ctx user password
    (answer.1.success = true ↔ (passwords calls).length < 3 ∧ password = some tokenEnv) ∧
      (answer.1.success = false → answer.1.recordsFailure = true ∧ answer.2.authSuccess = ctx.authSuccess)

theorem bootstrapInit_ne_nil {tokenEnv : Bytes} (hne : tokenEnv ≠ []) (hnul : 0 ∉ tokenEnv) :
    (bootstrapInit (some tokenEnv)).bytes ≠ [] := by
  obtain ⟨b, rest, rfl⟩ := List.exists_cons_of_ne_nil hne
  show (cstr (b :: rest)).take (MAX_ACCESS_TOKEN_LEN - 1) ≠ []
  rw [cstr_of_notMem hnul, MAX_ACCESS_TOKEN_LEN, List.take_succ_cons]
  exact List.cons_ne_nil _ _

/-- Of a token that does not fit, the front that was copied is the password. -/
theorem overlong_token {tokenEnv : Bytes} (hnul : 0 ∉ tokenEnv) (hlong : MAX_ACCESS_TOKEN_LEN ≤ tokenEnv.length) :
    (authPassword (bootstrapInit (some tokenEnv)).bytes .init none (some tokenEnv)).1.success = false ∧
      (authPassword (bootstrapInit (some tokenEnv)).bytes .init none
        (some (tokenEnv.take (MAX_ACCESS_TOKEN_LEN - 1)))).1.success = true := by
  have ht : (bootstrapInit (some tokenEnv)).bytes ≠ [] := by
    apply bootstrapInit_ne_nil _ hnul
    rintro rfl
    exact absurd hlong (by decide)
  have hcopy : (bootstrapInit (some tokenEnv)).bytes = tokenEnv.take (MAX_ACCESS_TOKEN_LEN - 1) :=
    congrArg (List.take _) (cstr_of_notMem hnul)
  constructor
  · rw [Bool.eq_false_iff]
    intro h
    have hsame := Option.some.inj ((authPassword_reply ht .init none (some tokenEnv)).1.1 h).2
    have hfits := (bootstrapInit (some tokenEnv)).fits
    rw [← hsame] at hfits
    omega
  · rw [(authPassword_reply ht .init none _).1, hcopy]
    exact ⟨by decide, rfl⟩

/-- The token is the password if and only if it fits into `g_access_token`. -/
theorem tokenIsPassword_iff (tokenEnv : Bytes) (hne : tokenEnv ≠ []) (hnul : 0 ∉ tokenEnv) :
    TokenIsPassword tokenEnv ↔ tokenEnv.length < MAX_ACCESS_TOKEN_LEN := by
  have ht := bootstrapInit_ne_nil hne hnul
  constructor
  · intro h
    by_contra hlong
    have haccept := (h [] none (some tokenEnv)).1.2 ⟨by decide, rfl⟩
    have hdenied := (overlong_token hnul (Nat.le_of_not_lt hlong)).1
    exact Bool.false_ne_true (hdenied.symm.trans haccept)
  · intro hfits calls user password
    have hcopy : (bootstrapInit (some tokenEnv)).bytes = tokenEnv := CBuf.copy_bytes hnul hfits
    have hinv := ctxInv_callbacks ht (ctxInv_init _) calls
    rw [List.nil_append] at hinv
    have hreply := authPassword_reply ht
      (callbacks (bootstrapInit (some tokenEnv)).bytes .init calls) user password
    rw [hinv.attempts] at hreply
    simp only [hcopy] at hreply ⊢
    exact hreply

theorem tokenIsPassword_iff_key : TokenIsPassword (lit "key") ↔ (lit "key").length < MAX_ACCESS_TOKEN_LEN :=
  tokenIsPassword_iff (lit "key") (by decide) (by decide)

/-- A token of 256 bytes is denied as a password, and its first 255 bytes are accepted. -/
theorem long_token_is_denied :
    let tokenEnv : Bytes := List.replicate 256 0x61
    tokenEnv ≠ [] ∧ 0 ∉ tokenEnv ∧ ¬ TokenIsPassword tokenEnv ∧
      (authPassword (bootstrapInit (some tokenEnv)).bytes .init none (some tokenEnv)).1.success = false ∧
      (authPassword (bootstrapInit (some tokenEnv)).bytes .init none (some (tokenEnv.take 255))).1.success = true := by
  intro tokenEnv
  have hnul : 0 ∉ tokenEnv := fun h => absurd (List.eq_of_mem_replicate h) (by decide)
  have hlen : tokenEnv.length = 256 := List.length_replicate
  clear_value tokenEnv
  have hlong : MAX_ACCESS_TOKEN_LEN ≤ tokenEnv.length := by rw [hlen]; decide
  obtain ⟨hdenied, haccepted⟩ := overlong_token hnul hlong
  refine ⟨List.ne_nil_of_length_pos (by omega), hnul, ?_, hdenied, haccepted⟩
  intro h
  have haccept := (h [] none (some tokenEnv)).1.2 ⟨by decide, rfl⟩
  exact Bool.false_ne_true (hdenied.symm.trans haccept)

end Tnt
