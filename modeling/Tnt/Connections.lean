import Tnt.RateLimit
/-!
# Accounting of connections (`ssh_server.c`, `bootstrap.c`, `input.c`)

A connection is counted in the total, admitted by its address's entry, bootstrapped
on a thread of its own and then run as a session. Every way out of that leads
through its own cleanup code. The calls of different connections interleave.
-/
open BaseLib

namespace Tnt

/-- The calls of a cleanup that touch the counters, in the order of the source. -/
inductive Cleanup
  | releaseIp
  | decrementTotal
  deriving DecidableEq

/-- How far a connection has come. -/
inductive Stage
  /-- In the accept loop, behind `ratelimit_check_and_increment_total`. -/
  | counted
  /-- In the accept loop, behind a successful `ratelimit_check_ip`. -/
  | admitted
  /-- In `bootstrap_run`, without a `session_context_t`. -/
  | started
  /-- In `bootstrap_run`, with one. -/
  | bootstrapping
  /-- In `input_run_session`. -/
  | running
  /-- With these calls still to make, and nothing else. -/
  | leaving (pending : List Cleanup)
  deriving DecidableEq

/-- The ways a connection ends, once it is admitted. -/
inductive Exit
  /-- `ssh_server_start` cannot allocate an `accepted_session_t`. -/
  | acceptedAlloc
  /-- `ssh_server_start` cannot create the thread. -/
  | threadCreate
  /-- `bootstrap_run` cannot allocate a `session_context_t`. -/
  | contextAlloc
  | keyExchange
  | eventAlloc
  | eventAddSession
  | authentication
  | channelSetup
  | clientAlloc
  | channelCallbacks
  /-- `input_run_session` reaches its `cleanup` label. -/
  | sessionEnd
  deriving DecidableEq

/-- `cleanup_failed_session` -/
def cleanupFailedSession : List Cleanup := [.releaseIp, .decrementTotal]

/-- Where a connection is when it leaves this way. -/
def Exit.stage : Exit → Stage
  | acceptedAlloc | threadCreate => .admitted
  | contextAlloc => .started
  | keyExchange | eventAlloc | eventAddSession | authentication | channelSetup | clientAlloc | channelCallbacks =>
    .bootstrapping
  | sessionEnd => .running

/-- The calls that the code at each exit makes. -/
def Exit.cleanup : Exit → List Cleanup
  | acceptedAlloc => [.releaseIp, .decrementTotal]
  | threadCreate => [.releaseIp, .decrementTotal]
  | contextAlloc => [.releaseIp, .decrementTotal]
  | keyExchange => cleanupFailedSession
  | eventAlloc => cleanupFailedSession
  | eventAddSession => cleanupFailedSession
  | authentication => cleanupFailedSession
  | channelSetup => cleanupFailedSession
  | clientAlloc => cleanupFailedSession
  | channelCallbacks => cleanupFailedSession
  | sessionEnd => [.releaseIp, .decrementTotal]

/-- A connection, with a record of the calls made for it. -/
structure Connection where
  ip : Ip
  stage : Stage
  wasAdmitted : Bool
  releases : Nat
  decrements : Nat

/-- The counters, and every connection that was ever counted. -/
structure Connections where
  table : RateLimits
  /-- `g_total_connections` -/
  total : Int
  connections : List Connection

def Connections.init : Connections := ⟨RateLimits.init, 0, []⟩

inductive ConnEvent
  /-- `ssh_bind_accept` returns a connection from `ip`, and the total is checked. -/
  | accept (ip : Ip)
  | checkIp (i : Nat) (now : Int)
  | threadStarts (i : Nat)
  | contextReady (i : Nat)
  | authFailure (i : Nat) (now : Int)
  | sessionStarts (i : Nat)
  | exit (i : Nat) (x : Exit)
  | cleanup (i : Nat) (now : Int)

/-- `ratelimit_check_and_increment_total` -/
def ratelimitCheckAndIncrementTotal (cfg : RateLimitConfig) (total : Int) : Bool × Int :=
  if total ≥ cfg.maxConnections then (false, total) else (true, total + 1)

/-- `ratelimit_decrement_total` -/
def ratelimitDecrementTotal (total : Int) : Int := if total > 0 then total - 1 else total

/-- Connection `i` goes on. -/
def Connections.put (s : Connections) (i : Nat) (c : Connection) : Connections :=
  { s with connections := s.connections.set i c }

def connStep (cfg : RateLimitConfig) (s : Connections) : ConnEvent → Option Connections
  | .accept ip =>
    let (ok, total) := ratelimitCheckAndIncrementTotal cfg s.total
    if ok then some { s with total, connections := s.connections ++ [⟨ip, .counted, false, 0, 0⟩] } else some s
  | .checkIp i now => do
    let c ← s.connections[i]?
    if c.stage = .counted then
      let (ok, table) := ratelimitCheckIp cfg c.ip.text now s.table
      let c := if ok then { c with stage := .admitted, wasAdmitted := true }
        else { c with stage := .leaving [.decrementTotal] }
      some { s.put i c with table }
    else none
  | .threadStarts i => do
    let c ← s.connections[i]?
    if c.stage = .admitted then some (s.put i { c with stage := .started }) else none
  | .contextReady i => do
    let c ← s.connections[i]?
    if c.stage = .started then some (s.put i { c with stage := .bootstrapping }) else none
  | .authFailure i now => do
    let c ← s.connections[i]?
    if c.stage = .bootstrapping then
      some { s with table := ratelimitRecordAuthFailure cfg c.ip.text now s.table }
    else none
  | .sessionStarts i => do
    let c ← s.connections[i]?
    if c.stage = .bootstrapping then some (s.put i { c with stage := .running }) else none
  | .exit i x => do
    let c ← s.connections[i]?
    if c.stage = x.stage then some (s.put i { c with stage := .leaving x.cleanup }) else none
  | .cleanup i now => do
    let c ← s.connections[i]?
    match c.stage with
    | .leaving (.releaseIp :: pending) =>
      some { s.put i { c with stage := .leaving pending, releases := c.releases + 1 } with
        table := ratelimitReleaseIp c.ip.text now s.table }
    | .leaving (.decrementTotal :: pending) =>
      some { s.put i { c with stage := .leaving pending, decrements := c.decrements + 1 } with
        total := ratelimitDecrementTotal s.total }
    | _ => none

/-! ## What the counters count -/

/-- `active_connections` of an address. -/
def RateLimits.active (t : RateLimits) (ip : Ip) : Int := ((t.find ip.text).map (·.activeConnections)).getD 0

namespace Connection

/-- Admitted, with `ratelimit_release_ip` still to come. -/
def holds (c : Connection) : Bool :=
  match c.stage with
  | .counted => false
  | .leaving pending => pending.contains .releaseIp
  | _ => true

/-- With `ratelimit_decrement_total` still to come. -/
def isCounted (c : Connection) : Bool :=
  match c.stage with
  | .leaving pending => pending.contains .decrementTotal
  | _ => true

def holdsIp (ip : Ip) (c : Connection) : Bool := c.holds && ip = c.ip

def ended (c : Connection) : Prop := c.stage = .leaving []

/-- The calls made for a connection so far are the ones its stage says. -/
def Recorded (c : Connection) : Prop :=
  match c.stage with
  | .counted => c.wasAdmitted = false ∧ c.releases = 0 ∧ c.decrements = 0
  | .leaving pending =>
    pending = [.releaseIp, .decrementTotal] ∧ c.wasAdmitted = true ∧ c.releases = 0 ∧ c.decrements = 0 ∨
      pending = [.decrementTotal] ∧ c.releases = c.wasAdmitted.toNat ∧ c.decrements = 0 ∨
      pending = [] ∧ c.releases = c.wasAdmitted.toNat ∧ c.decrements = 1
  | _ => c.wasAdmitted = true ∧ c.releases = 0 ∧ c.decrements = 0

theorem isCounted_of_recorded {c : Connection} (h : c.Recorded) (hh : c.holds = true) : c.isCounted = true := by
  unfold Recorded at h
  unfold holds at hh
  unfold isCounted
  split at h <;> simp_all
  rcases h with h | h | h <;> simp_all

end Connection

theorem exit_cleanup (x : Exit) : x.cleanup = [.releaseIp, .decrementTotal] := by
  cases x <;> rfl

namespace Connection

theorem holds_eq {c : Connection} (h : c.Recorded) : c.holds = (c.wasAdmitted && c.releases == 0) := by
  unfold Recorded at h
  unfold holds
  split at h <;> simp_all
  rcases h with h | h | h <;> rw [h.1] <;> cases hadmitted : c.wasAdmitted <;> simp_all

theorem isCounted_eq {c : Connection} (h : c.Recorded) : c.isCounted = (c.decrements == 0) := by
  unfold Recorded at h
  unfold isCounted
  split at h <;> simp_all
  rcases h with h | h | h <;> simp [h]

end Connection

/-- What holds in every state, whatever the connections do. -/
structure ConnInv (cfg : RateLimitConfig) (s : Connections) : Prop where
  unique : s.table.Unique
  free : ∀ e ∈ s.table.entries, e.ip = noIp → e.activeConnections = 0
  active : ∀ ip, s.table.active ip = s.connections.countP (Connection.holdsIp ip)
  active_le : ∀ ip, s.table.active ip ≤ cfg.maxConnPerIp
  total : s.total = s.connections.countP Connection.isCounted
  total_le : s.total ≤ cfg.maxConnections
  recorded : ∀ c ∈ s.connections, c.Recorded

/-- The part of it that the table has no part in. -/
structure TotalInv (cfg : RateLimitConfig) (s : Connections) : Prop where
  total : s.total = s.connections.countP Connection.isCounted
  total_le : s.total ≤ cfg.maxConnections
  recorded : ∀ c ∈ s.connections, c.Recorded

/-! ## Updates of the table -/

section Table
variable {t : RateLimits} {ip : Ip} {now : Int} {f : IpRateLimit → IpRateLimit}

theorem getRateLimitEntry_active (t : RateLimits) (ip : Ip) (now : Int) :
    (t.getRateLimitEntry ip.text now).activeConnections = t.active ip := by
  unfold RateLimits.getRateLimitEntry RateLimits.active
  cases t.find ip.text <;> rfl

theorem free_update (hfree : ∀ e ∈ t.entries, e.ip = noIp → e.activeConnections = 0) (hf : ∀ e, (f e).ip = e.ip) :
    ∀ e ∈ (t.update ip.text now f).entries, e.ip = noIp → e.activeConnections = 0 := by
  intro e he hip
  rcases List.mem_or_eq_of_mem_set he with he | rfl
  · exact hfree e he hip
  · rw [hf, RateLimits.getRateLimitEntry_ip] at hip
    exact absurd hip ip.ne

/-- While some entry has no active connections, a call changes those of its own address only. -/
theorem active_update (hu : t.Unique) (hf : ∀ e, (f e).ip = e.ip)
    (hspare : t.find ip.text ≠ none ∨ ∃ e ∈ t.entries, e.activeConnections = 0) (ip' : Ip) :
    (t.update ip.text now f).active ip' =
      if ip' = ip then (f (t.getRateLimitEntry ip.text now)).activeConnections else t.active ip' := by
  unfold RateLimits.active
  rw [RateLimits.find_update hu ip.ne hf ip'.ne]
  by_cases hip : ip' = ip
  · rw [if_pos (congrArg Ip.text hip), if_pos hip]
    rfl
  · rw [if_neg fun h => hip (Ip.ext h), if_neg hip]
    split
    · rename_i hholder
      -- The address that loses its entry has no active connections.
      rcases hfind : t.find ip'.text with _ | en
      · rfl
      · obtain ⟨e, he, hcases⟩ := t.slot_cases ip.text
        have hip' : e.ip = ip'.text := by rw [hholder, RateLimits.holder, he]; rfl
        have hen : t.find ip'.text = some e := (lookup_eq_some hu ip'.ne).2 ⟨_, he, hip'⟩
        rw [hen] at hfind
        obtain rfl := Option.some.inj hfind
        rcases hcases with h | ⟨hnone, h | h | h⟩
        · exact absurd (Ip.ext (hip'.symm.trans h)) hip
        · exact absurd (hip'.symm.trans h) ip'.ne
        · exact h.symm
        · rcases hspare with hspare | ⟨e', he', h0⟩
          · exact absurd hnone hspare
          · exact absurd h0 (h e' he')
    · rfl

theorem checkEntry_active (cfg : RateLimitConfig) (now : Int) (e : IpRateLimit) :
    (checkEntry cfg now e).2.activeConnections = e.activeConnections + (if (checkEntry cfg now e).1 then 1 else 0) ∧
      ((checkEntry cfg now e).1 = true → e.activeConnections < cfg.maxConnPerIp) := by
  simp only [checkEntry]
  split_ifs <;> simp_all

theorem failEntry_active (now : Int) (e : IpRateLimit) : (failEntry now e).activeConnections = e.activeConnections := by
  simp only [failEntry]
  split_ifs <;> rfl

theorem releaseEntry_active {e : IpRateLimit} (h : 0 < e.activeConnections) :
    (releaseEntry e).activeConnections = e.activeConnections - 1 := by
  rw [releaseEntry, if_pos h]

end Table

/-! ## The table never runs full of active entries -/

section Step
variable {cfg : RateLimitConfig} {s s' : Connections}

/-- Distinct active entries have distinct connections behind them. -/
theorem active_entries_le (hi : ConnInv cfg s) (hall : ∀ e ∈ s.table.entries, e.activeConnections ≠ 0) :
    MAX_TRACKED_IPS ≤ s.connections.countP Connection.holds := by
  have hnodup : (s.table.entries.map IpRateLimit.ip).Nodup := by
    rw [List.nodup_iff_pairwise_ne, List.pairwise_map, List.pairwise_iff_getElem]
    intro i j hi' hj' hij heq
    have := hi.unique i j _ _ (List.getElem?_eq_getElem hi') (List.getElem?_eq_getElem hj') heq fun h0 =>
      hall _ (List.getElem_mem hi') (hi.free _ (List.getElem_mem hi') h0)
    omega
  have hsub : s.table.entries.map IpRateLimit.ip ⊆ (s.connections.filter Connection.holds).map (·.ip.text) := by
    intro x hx
    obtain ⟨e, he, rfl⟩ := List.mem_map.1 hx
    have hne : e.ip ≠ noIp := fun h0 => hall e he (hi.free e he h0)
    obtain ⟨i, hi'⟩ := List.mem_iff_getElem?.1 he
    have hfind : s.table.find e.ip = some e := (lookup_eq_some hi.unique hne).2 ⟨i, hi', rfl⟩
    have hactive := hi.active ⟨e.ip, hne⟩
    simp only [RateLimits.active, hfind, Option.map_some, Option.getD_some] at hactive
    have hpos : 0 < s.connections.countP (Connection.holdsIp ⟨e.ip, hne⟩) := by
      have := hall e he
      omega
    obtain ⟨c, hc, hholds⟩ := List.countP_pos_iff.1 hpos
    simp only [Connection.holdsIp, Bool.and_eq_true, decide_eq_true_eq] at hholds
    exact List.mem_map.2 ⟨c, List.mem_filter.2 ⟨hc, hholds.1⟩, congrArg Ip.text hholds.2.symm⟩
  have := hnodup.length_le_of_subset hsub
  rwa [List.length_map, List.length_map, s.table.length_eq, ← List.countP_eq_length_filter] at this

/-- While a connection is between the two checks, an entry without active connections is left. -/
theorem spare_entry (hmax : cfg.maxConnections ≤ MAX_TRACKED_IPS) (hi : ConnInv cfg s) {c : Connection}
    (hc : c ∈ s.connections) (hstage : c.stage = .counted) : ∃ e ∈ s.table.entries, e.activeConnections = 0 := by
  by_contra hnone
  push Not at hnone
  have hle := active_entries_le hi hnone
  have hlt : s.connections.countP Connection.holds < s.connections.countP Connection.isCounted :=
    countP_lt (fun a ha h => Connection.isCounted_of_recorded (hi.recorded a ha) h) hc
      (by simp [Connection.holds, hstage]) (by simp [Connection.isCounted, hstage])
  have h1 := hi.total
  have h2 := hi.total_le
  simp only [MAX_TRACKED_IPS] at hmax hle
  omega

/-- The address of a connection that holds a place has an entry. -/
theorem find_of_holds (hi : ConnInv cfg s) {c : Connection} (hc : c ∈ s.connections) (hh : c.holds = true) :
    s.table.find c.ip.text ≠ none ∧ 0 < s.table.active c.ip := by
  have hpos : 0 < s.connections.countP (Connection.holdsIp c.ip) :=
    List.countP_pos_iff.2 ⟨c, hc, by simp [Connection.holdsIp, hh]⟩
  have hactive := hi.active c.ip
  have hpos' : 0 < s.table.active c.ip := by omega
  refine ⟨fun hnone => ?_, hpos'⟩
  simp [RateLimits.active, hnone] at hpos'

/-! ## What one event does -/

/-- A connection goes on without a call that counts. -/
def Moves (c c' : Connection) : Prop :=
  c'.ip = c.ip ∧ c'.holds = c.holds ∧ c'.isCounted = c.isCounted ∧ (c.Recorded → c'.Recorded)

/-- What one event does to the counters and the connections. -/
inductive ConnEffect (cfg : RateLimitConfig) (s : Connections) : Connections → Prop
  | refused : ConnEffect cfg s s
  | accepted (ip : Ip) (htotal : s.total < cfg.maxConnections) :
    ConnEffect cfg s { s with total := s.total + 1, connections := s.connections ++ [⟨ip, .counted, false, 0, 0⟩] }
  | moved {i : Nat} {c c' : Connection} (hc : s.connections[i]? = some c) (hmoves : Moves c c') :
    ConnEffect cfg s (s.put i c')
  | checked {i : Nat} {c : Connection} (now : Int) (hc : s.connections[i]? = some c) (hstage : c.stage = .counted) :
    ConnEffect cfg s { s.put i (if (ratelimitCheckIp cfg c.ip.text now s.table).1
        then { c with stage := .admitted, wasAdmitted := true }
        else { c with stage := .leaving [.decrementTotal] }) with
      table := (ratelimitCheckIp cfg c.ip.text now s.table).2 }
  | failed {i : Nat} {c : Connection} (now : Int) (hc : s.connections[i]? = some c)
      (hstage : c.stage = .bootstrapping) :
    ConnEffect cfg s { s with table := ratelimitRecordAuthFailure cfg c.ip.text now s.table }
  | released {i : Nat} {c : Connection} {pending : List Cleanup} (now : Int) (hc : s.connections[i]? = some c)
      (hstage : c.stage = .leaving (.releaseIp :: pending)) :
    ConnEffect cfg s { s.put i { c with stage := .leaving pending, releases := c.releases + 1 } with
      table := ratelimitReleaseIp c.ip.text now s.table }
  | uncounted {i : Nat} {c : Connection} {pending : List Cleanup} (hc : s.connections[i]? = some c)
      (hstage : c.stage = .leaving (.decrementTotal :: pending)) :
    ConnEffect cfg s { s.put i { c with stage := .leaving pending, decrements := c.decrements + 1 } with
      total := ratelimitDecrementTotal s.total }

theorem connStep_effect {e : ConnEvent} (h : connStep cfg s e = some s') : ConnEffect cfg s s' := by
  cases e with
  | accept ip =>
    by_cases hfull : s.total ≥ cfg.maxConnections
    · simp only [connStep, ratelimitCheckAndIncrementTotal, if_pos hfull, Bool.false_eq_true, if_false] at h
      cases h
      exact .refused
    · simp only [connStep, ratelimitCheckAndIncrementTotal, if_neg hfull, if_true] at h
      cases h
      exact .accepted ip (by omega)
  | checkIp i now =>
    simp only [connStep, Option.bind_eq_bind, Option.bind_eq_some_iff] at h
    obtain ⟨c, hc, h⟩ := h
    rw [Option.ite_none_right_eq_some] at h
    obtain ⟨hstage, h⟩ := h
    cases h
    exact .checked now hc hstage
  | threadStarts i | contextReady i | sessionStarts i =>
    simp only [connStep, Option.bind_eq_bind, Option.bind_eq_some_iff] at h
    obtain ⟨c, hc, h⟩ := h
    split_ifs at h with hstage
    cases h
    refine .moved hc ⟨rfl, ?_, ?_, ?_⟩ <;> simp [Connection.holds, Connection.isCounted, Connection.Recorded, hstage]
  | authFailure i now =>
    simp only [connStep, Option.bind_eq_bind, Option.bind_eq_some_iff] at h
    obtain ⟨c, hc, h⟩ := h
    split_ifs at h with hstage
    cases h
    exact .failed now hc hstage
  | exit i x =>
    simp only [connStep, Option.bind_eq_bind, Option.bind_eq_some_iff] at h
    obtain ⟨c, hc, h⟩ := h
    split_ifs at h with hstage
    rw [exit_cleanup] at h
    cases h
    refine .moved hc ⟨rfl, ?_, ?_, ?_⟩ <;>
      cases x <;> simp_all [Connection.holds, Connection.isCounted, Connection.Recorded, Exit.stage]
  | cleanup i now =>
    simp only [connStep, Option.bind_eq_bind, Option.bind_eq_some_iff] at h
    obtain ⟨c, hc, h⟩ := h
    split at h
    · rename_i pending hstage
      cases h
      exact .released now hc hstage
    · rename_i pending hstage
      cases h
      exact .uncounted hc hstage
    · cases h

variable {i : Nat} {c c' : Connection}

theorem recorded_set (hrecorded : ∀ c ∈ s.connections, c.Recorded) (hc' : c'.Recorded) :
    ∀ d ∈ s.connections.set i c', d.Recorded := by
  intro d hd
  rcases List.mem_or_eq_of_mem_set hd with hd | rfl
  · exact hrecorded d hd
  · exact hc'

/-- The count of one address behind a write. -/
theorem countP_holdsIp (hc : s.connections[i]? = some c) (c' : Connection) (hip : c'.ip = c.ip) (ip : Ip) :
    ((s.connections.set i c').countP (Connection.holdsIp ip) : Int) =
      s.connections.countP (Connection.holdsIp ip) -
        (if c.holds = true ∧ ip = c.ip then 1 else 0) + (if c'.holds = true ∧ ip = c.ip then 1 else 0) := by
  rw [countP_write hc]
  simp only [Connection.holdsIp, hip, Bool.and_eq_true, decide_eq_true_eq]

/-- The total does not depend on the table. -/
theorem totalInv_step (hi : TotalInv cfg s) {e : ConnEvent} (h : connStep cfg s e = some s') : TotalInv cfg s' := by
  cases connStep_effect h with
  | refused => exact hi
  | accepted ip htotal =>
    -- A new connection counts.
    refine ⟨?_, ?_, ?_⟩
    · simp [hi.total, Connection.isCounted]
    · simp only []
      omega
    · intro c hc
      rcases List.mem_append.1 hc with hc | hc
      · exact hi.recorded c hc
      · rw [List.mem_singleton.1 hc]
        exact ⟨rfl, rfl, rfl⟩
  | moved hc hmoves =>
    obtain ⟨-, -, hcounted, hrec⟩ := hmoves
    refine ⟨?_, hi.total_le, recorded_set hi.recorded (hrec (hi.recorded _ (List.mem_of_getElem? hc)))⟩
    rw [Connections.put, countP_write hc, hcounted, ← hi.total]
    simp
  | @checked i c now hc hstage =>
    have hrec := hi.recorded c (List.mem_of_getElem? hc)
    simp only [Connection.Recorded, hstage] at hrec
    have hcounted : c.isCounted = true := by simp [Connection.isCounted, hstage]
    dsimp only
    split
    · refine ⟨?_, hi.total_le, recorded_set hi.recorded ⟨rfl, hrec.2⟩⟩
      rw [Connections.put, countP_write hc, hcounted, ← hi.total]
      simp [Connection.isCounted]
    · refine ⟨?_, hi.total_le, recorded_set hi.recorded (.inr (.inl ⟨rfl, ?_, hrec.2.2⟩))⟩
      · rw [Connections.put, countP_write hc, hcounted, ← hi.total]
        simp [Connection.isCounted]
      · rw [hrec.1, hrec.2.1]
        rfl
  | failed now hc hstage => exact ⟨hi.total, hi.total_le, hi.recorded⟩
  | @released i c pending now hc hstage =>
    have hrec := hi.recorded c (List.mem_of_getElem? hc)
    simp only [Connection.Recorded, hstage, List.cons.injEq, true_and, reduceCtorEq, false_and, or_false] at hrec
    obtain ⟨rfl, hadmitted, hreleases, hdecrements⟩ := hrec
    have hcounted : c.isCounted = true := by simp [Connection.isCounted, hstage]
    refine ⟨?_, hi.total_le, recorded_set hi.recorded (.inr (.inl ⟨rfl, ?_, hdecrements⟩))⟩
    · rw [Connections.put, countP_write hc, hcounted, ← hi.total]
      simp [Connection.isCounted]
    · rw [hreleases, hadmitted]
      rfl
  | @uncounted i c pending hc hstage =>
    have hmem := List.mem_of_getElem? hc
    have hrec := hi.recorded c hmem
    simp only [Connection.Recorded, hstage, List.cons.injEq, true_and, reduceCtorEq, false_and, or_false,
      false_or] at hrec
    obtain ⟨rfl, hreleases, hdecrements⟩ := hrec
    have hcounted : c.isCounted = true := by simp [Connection.isCounted, hstage]
    have hpos : 0 < s.connections.countP Connection.isCounted := List.countP_pos_iff.2 ⟨c, hmem, hcounted⟩
    have htotal := hi.total
    have hle := hi.total_le
    have hdec : ratelimitDecrementTotal s.total = s.total - 1 := if_pos (by omega)
    refine ⟨?_, ?_, recorded_set hi.recorded (.inr (.inr ⟨rfl, hreleases, ?_⟩))⟩
    · rw [Connections.put, countP_write hc, hcounted, hdec, htotal]
      simp [Connection.isCounted]
    · simp only [hdec]
      omega
    · simp [hdecrements]

/-- With a spare entry, the check adds one to its own address where it says yes, and the address had room for it. -/
theorem checkIp_active (hu : s.table.Unique) {ip : Ip} (hspare : ∃ e ∈ s.table.entries, e.activeConnections = 0)
    (now : Int) :
    (∀ ip', (ratelimitCheckIp cfg ip.text now s.table).2.active ip' =
      s.table.active ip' + (if (ratelimitCheckIp cfg ip.text now s.table).1 = true ∧ ip' = ip then 1 else 0)) ∧
      ((ratelimitCheckIp cfg ip.text now s.table).1 = true → s.table.active ip < cfg.maxConnPerIp) := by
  obtain ⟨hentry, hroom⟩ := checkEntry_active cfg now (s.table.getRateLimitEntry ip.text now)
  rw [getRateLimitEntry_active] at hentry hroom
  refine ⟨?_, hroom⟩
  intro ip'
  have hactive : (ratelimitCheckIp cfg ip.text now s.table).2.active ip' = _ :=
    active_update hu (checkEntry_ip cfg now) (.inr hspare) ip'
  rw [hactive, hentry]
  by_cases hip : ip' = ip
  · subst hip
    simp only [if_true, and_true]
    rfl
  · simp [hip]

theorem recordAuthFailure_active (hu : s.table.Unique) {ip : Ip} (hfound : s.table.find ip.text ≠ none) (now : Int)
    (ip' : Ip) : (s.table.update ip.text now (failEntry now)).active ip' = s.table.active ip' := by
  rw [active_update hu (failEntry_ip now) (.inl hfound), failEntry_active, getRateLimitEntry_active]
  split
  · rename_i h
    rw [h]
  · rfl

theorem releaseIp_active (hu : s.table.Unique) {ip : Ip} (hfound : s.table.find ip.text ≠ none)
    (hpos : 0 < s.table.active ip) (now : Int) (ip' : Ip) :
    (ratelimitReleaseIp ip.text now s.table).active ip' =
      if ip' = ip then s.table.active ip - 1 else s.table.active ip' := by
  rw [ratelimitReleaseIp, if_neg ip.ne, active_update hu releaseEntry_ip (.inl hfound),
    releaseEntry_active (by rw [getRateLimitEntry_active]; exact hpos), getRateLimitEntry_active]

theorem connInv_step (hmax : cfg.maxConnections ≤ MAX_TRACKED_IPS) (hi : ConnInv cfg s) {e : ConnEvent}
    (h : connStep cfg s e = some s') : ConnInv cfg s' := by
  obtain ⟨htotal, hle, hrecorded⟩ := totalInv_step ⟨hi.total, hi.total_le, hi.recorded⟩ h
  cases connStep_effect h with
  | refused => exact hi
  | accepted ip =>
    -- A new connection counts for no address.
    refine ⟨hi.unique, hi.free, ?_, hi.active_le, htotal, hle, hrecorded⟩
    intro ip'
    simp [hi.active ip', Connection.holdsIp, Connection.holds]
  | @moved i c c' hc hmoves =>
    obtain ⟨hip, hholds, -, -⟩ := hmoves
    refine ⟨hi.unique, hi.free, ?_, hi.active_le, htotal, hle, hrecorded⟩
    intro ip'
    rw [Connections.put, countP_holdsIp hc c' hip, hholds, ← hi.active ip']
    simp
  | @checked i c now hc hstage =>
    have hspare := spare_entry hmax hi (List.mem_of_getElem? hc) hstage
    have hholds : c.holds = false := by simp [Connection.holds, hstage]
    obtain ⟨hactive, hroom⟩ := @checkIp_active cfg s hi.unique c.ip hspare now
    refine ⟨RateLimits.unique_update hi.unique c.ip.ne (checkEntry_ip cfg now),
      free_update hi.free (checkEntry_ip cfg now), ?_, ?_, htotal, hle, hrecorded⟩
    · intro ip
      simp only [Connections.put]
      rw [hactive]
      cases (ratelimitCheckIp cfg c.ip.text now s.table).1 with
      | false =>
        simp only [Bool.false_eq_true, if_false, false_and]
        rw [countP_holdsIp hc { c with stage := .leaving [.decrementTotal] } rfl, hholds, ← hi.active ip]
        simp [Connection.holds]
      | true =>
        simp only [if_true, true_and]
        rw [countP_holdsIp hc { c with stage := .admitted, wasAdmitted := true } rfl, hholds, ← hi.active ip]
        simp [Connection.holds]
    · intro ip
      have hbefore := hi.active_le ip
      rw [hactive]
      split
      · rename_i hgrows
        have := hroom hgrows.1
        rw [hgrows.2]
        omega
      · omega
  | @failed i c now hc hstage =>
    unfold ratelimitRecordAuthFailure
    split
    · have hfound := (find_of_holds hi (List.mem_of_getElem? hc) (by simp [Connection.holds, hstage])).1
      have hactive := recordAuthFailure_active hi.unique hfound now
      refine ⟨RateLimits.unique_update hi.unique c.ip.ne (failEntry_ip now), free_update hi.free (failEntry_ip now),
        ?_, ?_, hi.total, hi.total_le, hi.recorded⟩
      · intro ip
        rw [hactive, hi.active]
      · intro ip
        rw [hactive]
        exact hi.active_le ip
    · exact hi
  | @released i c pending now hc hstage =>
    have hmem := List.mem_of_getElem? hc
    have hrec := hi.recorded c hmem
    simp only [Connection.Recorded, hstage, List.cons.injEq, true_and, reduceCtorEq, false_and, or_false] at hrec
    obtain ⟨rfl, -⟩ := hrec
    have hholds : c.holds = true := by simp [Connection.holds, hstage]
    obtain ⟨hfound, hpos⟩ := find_of_holds hi hmem hholds
    have hactive := releaseIp_active hi.unique hfound hpos now
    refine ⟨?_, ?_, ?_, ?_, htotal, hle, hrecorded⟩
    · rw [ratelimitReleaseIp, if_neg c.ip.ne]
      exact RateLimits.unique_update hi.unique c.ip.ne releaseEntry_ip
    · rw [ratelimitReleaseIp, if_neg c.ip.ne]
      exact free_update hi.free releaseEntry_ip
    · intro ip
      simp only [Connections.put]
      rw [hactive, countP_holdsIp hc { c with stage := .leaving [.decrementTotal], releases := c.releases + 1 } rfl,
        hholds]
      simp only [Connection.holds, ← hi.active ip]
      split <;> simp_all
    · intro ip
      have hbefore := hi.active_le ip
      rw [hactive]
      split
      · rename_i hip
        rw [← hip]
        omega
      · exact hbefore
  | @uncounted i c pending hc hstage =>
    have hrec := hi.recorded c (List.mem_of_getElem? hc)
    simp only [Connection.Recorded, hstage, List.cons.injEq, true_and, reduceCtorEq, false_and, or_false,
      false_or] at hrec
    obtain ⟨rfl, -⟩ := hrec
    have hholds : c.holds = false := by simp [Connection.holds, hstage]
    refine ⟨hi.unique, hi.free, ?_, hi.active_le, htotal, hle, hrecorded⟩
    intro ip
    simp only [Connections.put]
    rw [countP_holdsIp hc { c with stage := .leaving [], decrements := c.decrements + 1 } rfl, hholds, ← hi.active ip]
    simp [Connection.holds]

end Step

theorem totalInv_init (cfg : RateLimitConfig) : TotalInv cfg Connections.init where
  total := rfl
  total_le := by
    have := cfg.connections_range.1
    simp only [Connections.init]
    omega
  recorded c hc := by simp [Connections.init] at hc

theorem connInv_init (cfg : RateLimitConfig) : ConnInv cfg Connections.init where
  unique := RateLimits.unique_init
  free e he _ := by rw [List.eq_of_mem_replicate he]; rfl
  active ip := by
    have hnone : RateLimits.init.find ip.text = none := RateLimits.find_eq_none.2 fun e he h => by
      rw [List.eq_of_mem_replicate he] at h
      exact ip.ne h.symm
    simp [RateLimits.active, Connections.init, hnone]
  active_le ip := by
    have hnone : RateLimits.init.find ip.text = none := RateLimits.find_eq_none.2 fun e he h => by
      rw [List.eq_of_mem_replicate he] at h
      exact ip.ne h.symm
    have := cfg.perIp_range.1
    simp only [RateLimits.active, Connections.init, hnone, Option.map_none, Option.getD_none]
    omega
  total := (totalInv_init cfg).total
  total_le := (totalInv_init cfg).total_le
  recorded := (totalInv_init cfg).recorded

/-- **Connection accounting.** The counters of the table and the total are the numbers of
connections that have not been taken back yet, within their limits, and a connection that has
ended was taken back once from each. -/
theorem connections_accounted (cfg : RateLimitConfig) (hmax : cfg.maxConnections ≤ MAX_TRACKED_IPS) (s : Connections)
    (hs : Reachable (connStep cfg) Connections.init s) :
    (∀ ip : Ip,
      s.table.active ip = s.connections.countP (fun c => c.wasAdmitted && c.releases == 0 && ip = c.ip) ∧
        s.table.active ip ≤ cfg.maxConnPerIp) ∧
      s.total = s.connections.countP (fun c => c.decrements == 0) ∧ 0 ≤ s.total ∧ s.total ≤ cfg.maxConnections ∧
      ∀ c ∈ s.connections, c.releases ≤ 1 ∧ c.decrements ≤ 1 ∧
        (c.wasAdmitted = true → c.ended → c.releases = 1 ∧ c.decrements = 1) := by
  have hi : ConnInv cfg s := hs.inv (ConnInv cfg) (fun _ _ _ h he => connInv_step hmax h he) (connInv_init cfg)
  have hholds (ip : Ip) : s.connections.countP (Connection.holdsIp ip) =
      s.connections.countP (fun c => c.wasAdmitted && c.releases == 0 && ip = c.ip) :=
    List.countP_congr fun c hc => by rw [Connection.holdsIp, Connection.holds_eq (hi.recorded c hc)]
  have hcounted : s.connections.countP Connection.isCounted = s.connections.countP (fun c => c.decrements == 0) :=
    List.countP_congr fun c hc => by rw [Connection.isCounted_eq (hi.recorded c hc)]
  refine ⟨fun ip => ⟨hholds ip ▸ hi.active ip, hi.active_le ip⟩, hcounted ▸ hi.total, ?_, hi.total_le, fun c hc => ?_⟩
  · have := hi.total
    omega
  · have hrec := hi.recorded c hc
    unfold Connection.Recorded at hrec
    unfold Connection.ended
    have hle := Bool.toNat_le c.wasAdmitted
    split at hrec
    · exact ⟨by omega, by omega, fun h => by rw [hrec.1] at h; cases h⟩
    · rename_i pending hstage
      rw [hstage]
      rcases hrec with ⟨rfl, h⟩ | ⟨rfl, h⟩ | ⟨rfl, h⟩
      · exact ⟨by omega, by omega, fun _ he => by cases he⟩
      · exact ⟨by omega, by omega, fun _ he => by cases he⟩
      · exact ⟨by omega, by omega, fun hadmitted _ => ⟨by rw [h.1, hadmitted]; rfl, h.2⟩⟩
    · rename_i hstage
      exact ⟨by omega, by omega, fun _ he => absurd he (hstage [])⟩

/-- A wrong password and what follows it, for one connection of the default configuration. -/
def failedLogin : List ConnEvent :=
  [.accept (peer 0), .checkIp 0 0, .threadStarts 0, .contextReady 0, .authFailure 0 1, .exit 0 .authentication,
    .cleanup 0 2, .cleanup 0 2]

theorem connections_accounted_failedLogin : ∃ s, exec (connStep defaultConfig) Connections.init failedLogin = some s ∧
    s.total = 0 ∧ s.table.active (peer 0) ≤ 5 ∧
      ∀ c ∈ s.connections, c.wasAdmitted = true → c.ended → c.releases = 1 ∧ c.decrements = 1 := by
  obtain ⟨s, hs⟩ := Option.isSome_iff_exists.1
    (show (exec (connStep defaultConfig) Connections.init failedLogin).isSome = true by decide +kernel)
  have htotal : (exec (connStep defaultConfig) Connections.init failedLogin).map (·.total) = some 0 := by decide +kernel
  have h := connections_accounted defaultConfig (by decide) s ⟨failedLogin, hs⟩
  rw [hs] at htotal
  exact ⟨s, hs, Option.some.inj htotal, (h.1 (peer 0)).2, fun c hc => (h.2.2.2.2 c hc).2.2⟩

end Tnt
