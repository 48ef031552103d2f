import Tnt.Connections
import Tnt.Terminal
/-!
# The room and the limit of connections (`config_defaults.c`, `chat_room.c`, `ratelimit.c`, `input.c`)

The room holds as many clients as there may be connections. A session adds its client after its connection is
counted and removes it before that is taken back, each under a lock of its own, so there is always room
(`room_within_limit`).
-/
open BaseLib

namespace Tnt

/-! ## The configuration -/

/-- The environment of the process, as `getenv` finds it. -/
abbrev Environment : Type := Bytes → Option Bytes

/-- `env_int` -/
def envInt (env : Environment) (name : Bytes) (fallback minVal maxVal : Int) : Int :=
  match (env name).map cstr with
  | none | some [] => fallback
  | some s =>
    match strtol s with
    | some (val, []) => if val < minVal ∨ val > maxVal then fallback else val
    -- No digit, or something behind the last one.
    | _ => fallback

/-- `tnt_config_env_int` -/
def configEnvInt (env : Environment) (spec : IntConfigSpec) : Int :=
  envInt env spec.envName spec.fallback spec.minValue spec.maxValue

theorem configEnvInt_range (env : Environment) (spec : IntConfigSpec) :
    spec.minValue ≤ configEnvInt env spec ∧ configEnvInt env spec ≤ spec.maxValue := by
  unfold configEnvInt envInt
  split
  · exact spec.fallback_range
  · exact spec.fallback_range
  · split
    · split
      · exact spec.fallback_range
      · omega
    · exact spec.fallback_range

/-- `ratelimit_init` -/
def ratelimitInit (env : Environment) : RateLimitConfig where
  maxConnections := configEnvInt env TNT_CONFIG_MAX_CONNECTIONS
  maxConnPerIp := configEnvInt env TNT_CONFIG_MAX_CONN_PER_IP
  maxConnRatePerIp := configEnvInt env TNT_CONFIG_MAX_CONN_RATE_PER_IP
  rateLimitEnabled := configEnvInt env TNT_CONFIG_RATE_LIMIT ≠ 0
  connections_range := configEnvInt_range env TNT_CONFIG_MAX_CONNECTIONS
  perIp_range := configEnvInt_range env TNT_CONFIG_MAX_CONN_PER_IP
  ratePerIp_range := configEnvInt_range env TNT_CONFIG_MAX_CONN_RATE_PER_IP

example : ratelimitInit (fun _ => none) = defaultConfig := rfl

/-! ## The room -/

/-- The pointers in `room->clients`, up to `client_count`, and `client_capacity`. -/
structure ChatRoom where
  clients : List Nat
  clientCapacity : Int
  deriving DecidableEq

/-- `room_create`, with `room_capacity_from_env`. -/
def roomCreate (env : Environment) : ChatRoom := ⟨[], configEnvInt env TNT_CONFIG_MAX_CONNECTIONS⟩

/-- `room_add_client` -/
def roomAddClient (room : ChatRoom) (client : Nat) : Option ChatRoom :=
  if room.clients.length ≥ room.clientCapacity then none else some { room with clients := room.clients ++ [client] }

/-- `room_remove_client` -/
def roomRemoveClient (room : ChatRoom) (client : Nat) : ChatRoom :=
  { room with clients := room.clients.erase client }

/-! ## Sessions -/

/-- How far `input_run_session` has come. -/
inductive RoomPhase
  /-- It runs an exec command. -/
  | exec
  /-- It is before `room_add_client`. -/
  | entering
  | joined
  /-- It is at its cleanup, and not or no longer in the room. -/
  | leaving
  /-- `ratelimit_release_ip` is next, and the memory of the client may be free. -/
  | ended
  deriving DecidableEq

structure RoomSession where
  /-- Which connection it is. -/
  conn : Nat
  client : Nat
  phase : RoomPhase
  deriving DecidableEq

structure RoomServer where
  conns : Connections
  room : ChatRoom
  sessions : List RoomSession

def RoomServer.init (env : Environment) : RoomServer := ⟨.init, roomCreate env, []⟩

/-- Session `k` goes on. -/
def RoomServer.put (s : RoomServer) (k : Nat) (x : RoomSession) : RoomServer :=
  { s with sessions := s.sessions.set k x }

inductive RoomServerEvent
  /-- What happens to a connection outside of `input_run_session`. -/
  | conn (e : ConnEvent)
  /-- `bootstrap_run` hands connection `i` over, with its client at an address. -/
  | start (i client : Nat) (exec : Bool)
  /-- `room_add_client` -/
  | join (k : Nat)
  /-- The session goes to its cleanup from before it joined. -/
  | giveUp (k : Nat)
  /-- `room_remove_client`, in its cleanup. -/
  | leave (k : Nat)
  /-- The rest of the cleanup begins. -/
  | finish (k : Nat)

def roomServerStep (cfg : RateLimitConfig) (s : RoomServer) : RoomServerEvent → Option RoomServer
  | .conn (.sessionStarts _) => none
  | .conn (.exit _ .sessionEnd) => none
  | .conn e => (connStep cfg s.conns e).map fun conns => { s with conns }
  | .start i client exec =>
    -- The memory of a client that is not freed is not given to another one.
    if ∃ x ∈ s.sessions, x.phase ≠ .ended ∧ x.client = client then none
    else (connStep cfg s.conns (.sessionStarts i)).map fun conns =>
      { s with conns, sessions := s.sessions ++ [⟨i, client, if exec then .exec else .entering⟩] }
  | .join k => do
    let x ← s.sessions[k]?
    if x.phase = .entering then
      match roomAddClient s.room x.client with
      | none => some (s.put k { x with phase := .leaving })
      | some room => some { s.put k { x with phase := .joined } with room }
    else none
  | .giveUp k => do
    let x ← s.sessions[k]?
    if x.phase = .exec ∨ x.phase = .entering then some (s.put k { x with phase := .leaving }) else none
  | .leave k => do
    let x ← s.sessions[k]?
    if x.phase = .joined then
      some { s.put k { x with phase := .leaving } with room := roomRemoveClient s.room x.client }
    else none
  | .finish k => do
    let x ← s.sessions[k]?
    if x.phase = .leaving then
      (connStep cfg s.conns (.exit x.conn .sessionEnd)).map fun conns =>
        { s.put k { x with phase := .ended } with conns }
    else none

/-! ## The invariant -/

def Connection.isRunning (c : Connection) : Bool := c.stage = .running

namespace RoomSession

/-- In `input_run_session`, with its client allocated. -/
def isLive (x : RoomSession) : Bool := x.phase ≠ .ended

def isMember (x : RoomSession) : Bool := x.phase = .joined

end RoomSession

structure RoomInv (cfg : RateLimitConfig) (s : RoomServer) : Prop where
  total : TotalInv cfg s.conns
  /-- Every running connection has one session. -/
  running : s.conns.connections.countP Connection.isRunning = s.sessions.countP RoomSession.isLive
  members : s.room.clients.Perm ((s.sessions.filter RoomSession.isMember).map RoomSession.client)
  distinct : ((s.sessions.filter RoomSession.isLive).map RoomSession.client).Nodup
  capacity : s.room.clientCapacity = cfg.maxConnections

variable {cfg : RateLimitConfig} {s s' : RoomServer}

theorem roomInv_init (env : Environment) : RoomInv (ratelimitInit env) (.init env) where
  total := totalInv_init _
  running := rfl
  members := .refl _
  distinct := List.nodup_nil
  capacity := rfl

/-! ## What a step does -/

section Step
variable {conns conns' : Connections}

/-- Outside of `input_run_session` no connection starts or stops running. -/
theorem connStep_running {e : ConnEvent} (hstart : ∀ i, e ≠ .sessionStarts i) (hend : ∀ i, e ≠ .exit i .sessionEnd)
    (h : connStep cfg conns e = some conns') :
    conns'.connections.countP Connection.isRunning = conns.connections.countP Connection.isRunning := by
  cases e with
  | accept ip =>
    simp only [connStep] at h
    split at h <;> cases h
    · rw [List.countP_append]
      rfl
    · rfl
  | checkIp i now =>
    simp only [connStep, Option.bind_eq_bind, Option.bind_eq_some_iff, Option.ite_none_right_eq_some] at h
    obtain ⟨c, hc, hstage, h⟩ := h
    cases h
    apply countP_set_eq hc
    rw [Connection.isRunning, Connection.isRunning, hstage]
    split <;> rfl
  | threadStarts i | contextReady i =>
    simp only [connStep, Option.bind_eq_bind, Option.bind_eq_some_iff, Option.ite_none_right_eq_some] at h
    obtain ⟨c, hc, hstage, h⟩ := h
    cases h
    apply countP_set_eq hc
    rw [Connection.isRunning, Connection.isRunning, hstage]
    rfl
  | authFailure i now =>
    simp only [connStep, Option.bind_eq_bind, Option.bind_eq_some_iff, Option.ite_none_right_eq_some] at h
    obtain ⟨c, -, -, h⟩ := h
    cases h
    rfl
  | sessionStarts i => exact absurd rfl (hstart i)
  | exit i x =>
    simp only [connStep, Option.bind_eq_bind, Option.bind_eq_some_iff, Option.ite_none_right_eq_some] at h
    obtain ⟨c, hc, hstage, h⟩ := h
    cases h
    apply countP_set_eq hc
    rw [Connection.isRunning, Connection.isRunning, hstage]
    cases x <;> first | rfl | exact absurd rfl (hend i)
  | cleanup i now =>
    simp only [connStep, Option.bind_eq_bind, Option.bind_eq_some_iff] at h
    obtain ⟨c, hc, h⟩ := h
    split at h <;> cases h
    · rename_i hstage
      apply countP_set_eq hc
      rw [Connection.isRunning, Connection.isRunning, hstage]
      rfl
    · rename_i hstage
      apply countP_set_eq hc
      rw [Connection.isRunning, Connection.isRunning, hstage]
      rfl

theorem connStep_starts {i : Nat} (h : connStep cfg conns (.sessionStarts i) = some conns') :
    conns'.connections.countP Connection.isRunning = conns.connections.countP Connection.isRunning + 1 := by
  simp only [connStep, Option.bind_eq_bind, Option.bind_eq_some_iff, Option.ite_none_right_eq_some] at h
  obtain ⟨c, hc, hstage, h⟩ := h
  cases h
  exact countP_set_succ hc (by rw [Connection.isRunning, hstage]; rfl) rfl

theorem connStep_ends {i : Nat} (h : connStep cfg conns (.exit i .sessionEnd) = some conns') :
    conns'.connections.countP Connection.isRunning + 1 = conns.connections.countP Connection.isRunning := by
  simp only [connStep, Option.bind_eq_bind, Option.bind_eq_some_iff, Option.ite_none_right_eq_some] at h
  obtain ⟨c, hc, hstage, h⟩ := h
  cases h
  exact countP_set_pred hc (by rw [Connection.isRunning, hstage]; rfl) rfl

end Step

/-! ## The invariant of a step -/

variable {k : Nat} {x x' : RoomSession}

theorem running_le_total (hi : RoomInv cfg s) : (s.sessions.countP RoomSession.isLive : Int) ≤ s.conns.total := by
  have hcounted : ∀ c ∈ s.conns.connections, c.isRunning = true → c.isCounted = true := by
    intro c _ h
    rw [Connection.isRunning, decide_eq_true_eq] at h
    rw [Connection.isCounted, h]
  have hle := List.countP_mono_left hcounted
  rw [hi.running] at hle
  rw [hi.total.total]
  exact Int.ofNat_le.2 hle

theorem clients_length (hi : RoomInv cfg s) : s.room.clients.length = s.sessions.countP RoomSession.isMember := by
  rw [hi.members.length_eq, List.length_map, List.countP_eq_length_filter]

theorem isLive_of_isMember (h : x.isMember = true) : x.isLive = true := by
  rw [RoomSession.isMember, decide_eq_true_eq] at h
  rw [RoomSession.isLive, h]
  rfl

/-- A session that is not in the room finds a place in it. -/
theorem room_left (hi : RoomInv cfg s) (hx : s.sessions[k]? = some x) (hphase : x.phase = .entering) :
    (s.room.clients.length : Int) < s.room.clientCapacity := by
  have hlt : s.sessions.countP RoomSession.isMember < s.sessions.countP RoomSession.isLive :=
    countP_lt (fun _ _ => isLive_of_isMember) (List.mem_of_getElem? hx)
      (by rw [RoomSession.isMember, hphase]; rfl) (by rw [RoomSession.isLive, hphase]; rfl)
  have htotal := running_le_total hi
  have hle := hi.total.total_le
  rw [clients_length hi, hi.capacity]
  omega

/-- A session goes on, and keeps its client. -/
theorem live_put (hi : RoomInv cfg s) (hx : s.sessions[k]? = some x) (hlive : x'.isLive = x.isLive)
    (hclient : x'.client = x.client) :
    s.conns.connections.countP Connection.isRunning = (s.put k x').sessions.countP RoomSession.isLive ∧
      (((s.put k x').sessions.filter RoomSession.isLive).map RoomSession.client).Nodup := by
  refine ⟨hi.running.trans (countP_set_eq hx hlive).symm, ?_⟩
  rw [RoomServer.put, filter_set_eq RoomSession.client hx hlive hclient]
  exact hi.distinct

/-- It goes on without the room. -/
theorem roomInv_put (hi : RoomInv cfg s) (hx : s.sessions[k]? = some x) (hlive : x'.isLive = x.isLive)
    (hmember : x'.isMember = x.isMember) (hclient : x'.client = x.client) : RoomInv cfg (s.put k x') := by
  obtain ⟨hrunning, hdistinct⟩ := live_put hi hx hlive hclient
  refine ⟨hi.total, hrunning, ?_, hdistinct, hi.capacity⟩
  rw [RoomServer.put, filter_set_eq RoomSession.client hx hmember hclient]
  exact hi.members

theorem roomInv_join (hi : RoomInv cfg s) (hx : s.sessions[k]? = some x) (hphase : x.phase = .entering) :
    RoomInv cfg { s.put k { x with phase := .joined } with
      room := { s.room with clients := s.room.clients ++ [x.client] } } := by
  have hlive : RoomSession.isLive { x with phase := .joined } = x.isLive := by
    rw [RoomSession.isLive, RoomSession.isLive, hphase]
    rfl
  obtain ⟨hrunning, hdistinct⟩ := live_put hi hx hlive rfl
  refine ⟨hi.total, hrunning, ?_, hdistinct, hi.capacity⟩
  have hadd := filter_set_add (b := { x with phase := .joined }) hx
    (p := RoomSession.isMember) (by rw [RoomSession.isMember, hphase]; rfl) rfl
  exact (List.perm_append_singleton _ _).trans ((hi.members.cons _).trans (hadd.map RoomSession.client).symm)

theorem roomInv_leave (hi : RoomInv cfg s) (hx : s.sessions[k]? = some x) (hphase : x.phase = .joined) :
    RoomInv cfg { s.put k { x with phase := .leaving } with room := roomRemoveClient s.room x.client } := by
  have hlive : RoomSession.isLive { x with phase := .leaving } = x.isLive := by
    rw [RoomSession.isLive, RoomSession.isLive, hphase]
    rfl
  obtain ⟨hrunning, hdistinct⟩ := live_put hi hx hlive rfl
  refine ⟨hi.total, hrunning, ?_, hdistinct, hi.capacity⟩
  have hdrop := filter_set_drop (b := { x with phase := .leaving }) hx
    (p := RoomSession.isMember) (by rw [RoomSession.isMember, hphase]; rfl) rfl
  have herase := (hi.members.trans (hdrop.map RoomSession.client)).erase x.client
  rwa [List.map_cons, List.erase_cons_head] at herase

theorem roomInv_start (hi : RoomInv cfg s) {i client : Nat} {exec : Bool} {conns : Connections}
    (hfresh : ¬ ∃ x ∈ s.sessions, x.phase ≠ .ended ∧ x.client = client)
    (h : connStep cfg s.conns (.sessionStarts i) = some conns) :
    RoomInv cfg { s with conns, sessions := s.sessions ++ [⟨i, client, if exec then .exec else .entering⟩] } where
  total := totalInv_step hi.total h
  running := by
    rw [connStep_starts h, hi.running, List.countP_append]
    cases exec <;> rfl
  members := by
    rw [List.filter_append]
    have hnone : [(⟨i, client, if exec then .exec else .entering⟩ : RoomSession)].filter RoomSession.isMember = [] := by
      cases exec <;> rfl
    rw [hnone, List.append_nil]
    exact hi.members
  distinct := by
    have hone : [(⟨i, client, if exec then .exec else .entering⟩ : RoomSession)].filter RoomSession.isLive =
        [⟨i, client, if exec then .exec else .entering⟩] := by
      cases exec <;> rfl
    rw [List.filter_append, hone, List.map_append, List.map_singleton]
    refine List.nodup_append.2 ⟨hi.distinct, List.nodup_singleton _, fun a ha b hb heq => ?_⟩
    rw [List.mem_singleton] at hb
    obtain ⟨x, hx, rfl⟩ := List.mem_map.1 ha
    obtain ⟨hmem, hlive⟩ := List.mem_filter.1 hx
    exact hfresh ⟨x, hmem, by simpa [RoomSession.isLive] using hlive, heq.trans hb⟩
  capacity := hi.capacity

theorem roomInv_finish (hi : RoomInv cfg s) {conns : Connections} (hx : s.sessions[k]? = some x)
    (hphase : x.phase = .leaving) (h : connStep cfg s.conns (.exit x.conn .sessionEnd) = some conns) :
    RoomInv cfg { s.put k { x with phase := .ended } with conns } where
  total := totalInv_step hi.total h
  running := by
    have hconns := connStep_ends h
    have hsessions := countP_set_pred (b := { x with phase := .ended }) hx
      (p := RoomSession.isLive) (by rw [RoomSession.isLive, hphase]; rfl) rfl
    have hrunning := hi.running
    simp only [RoomServer.put]
    omega
  members := by
    have hmember : RoomSession.isMember { x with phase := .ended } = x.isMember := by
      rw [RoomSession.isMember, RoomSession.isMember, hphase]
      rfl
    have hsame := filter_set_eq (b := { x with phase := .ended }) RoomSession.client hx hmember rfl
    simp only [RoomServer.put]
    rw [hsame]
    exact hi.members
  distinct := by
    have hdrop := filter_set_drop (b := { x with phase := .ended }) hx
      (p := RoomSession.isLive) (by rw [RoomSession.isLive, hphase]; rfl) rfl
    exact (((hdrop.map RoomSession.client).nodup_iff.1 hi.distinct)).of_cons
  capacity := hi.capacity

theorem roomInv_step (hi : RoomInv cfg s) {e : RoomServerEvent} (h : roomServerStep cfg s e = some s') :
    RoomInv cfg s' := by
  cases e with
  | conn e =>
    have hstart : ∀ i, e ≠ .sessionStarts i := by
      rintro i rfl
      cases h
    -- Sessions begin and end with an event of their own.
    have hend : ∀ i, e ≠ .exit i .sessionEnd := by
      rintro i rfl
      cases h
    have hconn : ∃ conns, connStep cfg s.conns e = some conns ∧ { s with conns } = s' := by
      unfold roomServerStep at h
      split at h
      · cases h
      · cases h
      · rename_i heq
        cases heq
        exact Option.map_eq_some_iff.1 h
      all_goals rename_i heq; cases heq
    obtain ⟨conns, hconns, rfl⟩ := hconn
    exact ⟨totalInv_step hi.total hconns, (connStep_running hstart hend hconns).trans hi.running, hi.members,
      hi.distinct, hi.capacity⟩
  | start i client exec =>
    simp only [roomServerStep, Option.ite_none_left_eq_some, Option.map_eq_some_iff] at h
    obtain ⟨hfresh, conns, hconns, rfl⟩ := h
    exact roomInv_start hi hfresh hconns
  | join k =>
    simp only [roomServerStep, Option.bind_eq_bind, Option.bind_eq_some_iff, Option.ite_none_right_eq_some] at h
    obtain ⟨x, hx, hphase, h⟩ := h
    rw [roomAddClient, if_neg (Int.not_le.2 (room_left hi hx hphase))] at h
    cases h
    exact roomInv_join hi hx hphase
  | giveUp k =>
    simp only [roomServerStep, Option.bind_eq_bind, Option.bind_eq_some_iff, Option.ite_none_right_eq_some] at h
    obtain ⟨x, hx, hphase, h⟩ := h
    cases h
    rcases hphase with hphase | hphase
    · exact roomInv_put hi hx (by rw [RoomSession.isLive, RoomSession.isLive, hphase]; rfl)
        (by rw [RoomSession.isMember, RoomSession.isMember, hphase]; rfl) rfl
    · exact roomInv_put hi hx (by rw [RoomSession.isLive, RoomSession.isLive, hphase]; rfl)
        (by rw [RoomSession.isMember, RoomSession.isMember, hphase]; rfl) rfl
  | leave k =>
    simp only [roomServerStep, Option.bind_eq_bind, Option.bind_eq_some_iff, Option.ite_none_right_eq_some] at h
    obtain ⟨x, hx, hphase, h⟩ := h
    cases h
    exact roomInv_leave hi hx hphase
  | finish k =>
    simp only [roomServerStep, Option.bind_eq_bind, Option.bind_eq_some_iff, Option.ite_none_right_eq_some,
      Option.map_eq_some_iff] at h
    obtain ⟨x, hx, hphase, conns, hconns, rfl⟩ := h
    exact roomInv_finish hi hx hphase hconns

/-- The room never holds more clients than there are connections, none of them twice, and a session that wants
to join finds a place. -/
theorem room_within_limit (env : Environment) (s : RoomServer)
    (hs : Reachable (roomServerStep (ratelimitInit env)) (.init env) s) :
    s.room.clients.length ≤ s.conns.total ∧ s.conns.total ≤ configEnvInt env TNT_CONFIG_MAX_CONNECTIONS ∧
      configEnvInt env TNT_CONFIG_MAX_CONNECTIONS = s.room.clientCapacity ∧ s.room.clients.Nodup ∧
      ∀ (k : Nat) (x : RoomSession), s.sessions[k]? = some x → x.phase = .entering →
        roomAddClient s.room x.client ≠ none := by
  have hi : RoomInv (ratelimitInit env) s :=
    hs.inv (RoomInv _) (fun _ _ _ hi h => roomInv_step hi h) (roomInv_init env)
  have hmember : s.sessions.countP RoomSession.isMember ≤ s.sessions.countP RoomSession.isLive :=
    List.countP_mono_left fun _ _ => isLive_of_isMember
  refine ⟨?_, hi.total.total_le, hi.capacity.symm, ?_, fun k x hx hphase => ?_⟩
  · rw [clients_length hi]
    exact (Int.ofNat_le.2 hmember).trans (running_le_total hi)
  · refine hi.members.nodup_iff.2 (hi.distinct.sublist (List.Sublist.map _ ?_))
    exact List.monotone_filter_right _ fun _ => isLive_of_isMember
  · rw [roomAddClient, if_neg (Int.not_le.2 (room_left hi hx hphase))]
    exact Option.some_ne_none _

/-- An environment that allows one connection. -/
def oneConnection : Environment := fun name => if name = lit "TNT_MAX_CONNECTIONS" then some (lit "1") else none

/-- A session comes and joins, and another connection is refused. -/
def oneJoins : List RoomServerEvent :=
  [.conn (.accept (peer 0)), .conn (.checkIp 0 0), .conn (.threadStarts 0), .conn (.contextReady 0), .start 0 7 false,
    .join 0, .conn (.accept (peer 1))]

theorem room_within_limit_one :
    ∃ s, exec (roomServerStep (ratelimitInit oneConnection)) (.init oneConnection) oneJoins =
    some s ∧ s.room.clients = [7] ∧ s.room.clients.length ≤ s.conns.total ∧ s.room.clientCapacity = 1 := by
  obtain ⟨s, hs⟩ := Option.isSome_iff_exists.1 (show (exec (roomServerStep (ratelimitInit oneConnection))
    (.init oneConnection) oneJoins).isSome = true by decide +kernel)
  have hroom : (exec (roomServerStep (ratelimitInit oneConnection)) (.init oneConnection) oneJoins).map (·.room) =
      some ⟨[7], 1⟩ := by decide +kernel
  rw [hs] at hroom
  have h := room_within_limit oneConnection s ⟨oneJoins, hs⟩
  exact ⟨s, hs, congrArg ChatRoom.clients (Option.some.inj hroom), h.1,
    congrArg ChatRoom.clientCapacity (Option.some.inj hroom)⟩

end Tnt
