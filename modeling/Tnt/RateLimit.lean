import Tnt.Lib.CText
import Tnt.Lib.Runs
import Tnt.Lib.Slots
import Mathlib.Data.List.Nodup
/-!
# Connections per address (`ratelimit.c`)

A table of 256 entries counts the connections and failed logins of each address.
An address without an entry takes a free one, else the oldest one without active
connections, else the oldest. `lookup_update` says what a call does to the
entries of all addresses; what it may do to a blocked one is the subject of the
last section.

A call reads the clock once.
-/
open BaseLib

namespace Tnt

def MAX_TRACKED_IPS : Nat := 256
def RATE_LIMIT_WINDOW : Int := 60
def MAX_AUTH_FAILURES : Int := 5
def BLOCK_DURATION : Int := 300
def INET6_ADDRSTRLEN : Nat := 46

abbrev IpText := CBuf INET6_ADDRSTRLEN

instance : NeZero INET6_ADDRSTRLEN := ⟨by decide⟩

/-- The `ip` of an entry that is not in use. -/
def noIp : IpText := ⟨[], by decide, by decide⟩

/-- The address of a peer, as text. -/
@[ext] structure Ip where
  text : IpText
  ne : text ≠ noIp
  deriving DecidableEq

/-- `ip_rate_limit_t` -/
structure IpRateLimit where
  ip : IpText
  windowStart : Int
  recentConnectionCount : Int
  activeConnections : Int
  authFailureCount : Int
  isBlocked : Bool
  blockUntil : Int
  deriving DecidableEq

def IpRateLimit.zero : IpRateLimit := ⟨noIp, 0, 0, 0, 0, false, 0⟩

/-- `tnt_int_config_spec_t` -/
structure IntConfigSpec where
  envName : Bytes
  fallback : Int
  minValue : Int
  maxValue : Int
  fallback_range : minValue ≤ fallback ∧ fallback ≤ maxValue

def TNT_CONFIG_MAX_CONNECTIONS : IntConfigSpec := ⟨lit "TNT_MAX_CONNECTIONS", 64, 1, 1024, by decide⟩
def TNT_CONFIG_MAX_CONN_PER_IP : IntConfigSpec := ⟨lit "TNT_MAX_CONN_PER_IP", 5, 1, 1024, by decide⟩
def TNT_CONFIG_MAX_CONN_RATE_PER_IP : IntConfigSpec := ⟨lit "TNT_MAX_CONN_RATE_PER_IP", 10, 1, 1024, by decide⟩
def TNT_CONFIG_RATE_LIMIT : IntConfigSpec := ⟨lit "TNT_RATE_LIMIT", 1, 0, 1, by decide⟩

/-- The limits that `ratelimit_init` reads, in the ranges that `env_int` keeps them in. -/
structure RateLimitConfig where
  maxConnections : Int
  maxConnPerIp : Int
  maxConnRatePerIp : Int
  rateLimitEnabled : Bool
  connections_range : 1 ≤ maxConnections ∧ maxConnections ≤ 1024
  perIp_range : 1 ≤ maxConnPerIp ∧ maxConnPerIp ≤ 1024
  ratePerIp_range : 1 ≤ maxConnRatePerIp ∧ maxConnRatePerIp ≤ 1024

/-- `g_rate_limits` -/
structure RateLimits where
  entries : List IpRateLimit
  length_eq : entries.length = MAX_TRACKED_IPS
  deriving DecidableEq

namespace RateLimits

def init : RateLimits := ⟨List.replicate MAX_TRACKED_IPS IpRateLimit.zero, List.length_replicate⟩

def set (t : RateLimits) (i : Nat) (e : IpRateLimit) : RateLimits := ⟨t.entries.set i e, by simp [t.length_eq]⟩

/-- The entry of an address. -/
def find (t : RateLimits) (ip : IpText) : Option IpRateLimit := lookup IpRateLimit.ip ip t.entries

/-- The index that `get_rate_limit_entry` finds, or picks for an address without entry. -/
def slot (t : RateLimits) (ip : IpText) : Nat :=
  match t.entries.findIdx? (·.ip = ip) with
  | some i => i
  | none =>
    match t.entries.findIdx? (·.ip = noIp) with
    | some i => i
    | none =>
      match firstMin (·.activeConnections = 0) (·.windowStart) t.entries with
      | some i => i
      | none => (firstMin (fun _ => true) (·.windowStart) t.entries).getD 0

/-- `get_rate_limit_entry`: what the entry it returns holds. -/
def getRateLimitEntry (t : RateLimits) (ip : IpText) (now : Int) : IpRateLimit :=
  (t.find ip).getD ⟨ip, now, 0, 0, 0, false, 0⟩

/-- Get the entry of `ip` and change it. -/
def update (t : RateLimits) (ip : IpText) (now : Int) (f : IpRateLimit → IpRateLimit) : RateLimits :=
  t.set (t.slot ip) (f (t.getRateLimitEntry ip now))

end RateLimits

/-! ## The calls -/

/-- `ratelimit_check_ip`, on the entry. -/
def checkEntry (cfg : RateLimitConfig) (now : Int) (e : IpRateLimit) : Bool × IpRateLimit :=
  if e.activeConnections ≥ cfg.maxConnPerIp then (false, e)
  else if cfg.rateLimitEnabled = true ∧ e.isBlocked = true ∧ now < e.blockUntil then (false, e)
  else
    let e :=
      if cfg.rateLimitEnabled = true ∧ e.isBlocked = true ∧ now ≥ e.blockUntil then
        { e with isBlocked := false, authFailureCount := 0 }
      else e
    if cfg.rateLimitEnabled then
      let e :=
        if now - e.windowStart ≥ RATE_LIMIT_WINDOW then { e with windowStart := now, recentConnectionCount := 0 } else e
      let e := { e with recentConnectionCount := e.recentConnectionCount + 1 }
      if e.recentConnectionCount > cfg.maxConnRatePerIp then
        (false, { e with isBlocked := true, blockUntil := now + BLOCK_DURATION })
      else (true, { e with activeConnections := e.activeConnections + 1 })
    else (true, { e with activeConnections := e.activeConnections + 1 })

/-- `ratelimit_record_auth_failure`, on the entry. -/
def failEntry (now : Int) (e : IpRateLimit) : IpRateLimit :=
  let e := { e with authFailureCount := e.authFailureCount + 1 }
  if e.authFailureCount ≥ MAX_AUTH_FAILURES then { e with isBlocked := true, blockUntil := now + BLOCK_DURATION } else e

/-- `ratelimit_release_ip`, on the entry. -/
def releaseEntry (e : IpRateLimit) : IpRateLimit :=
  if e.activeConnections > 0 then { e with activeConnections := e.activeConnections - 1 } else e

/-- `ratelimit_check_ip` -/
def ratelimitCheckIp (cfg : RateLimitConfig) (ip : IpText) (now : Int) (t : RateLimits) : Bool × RateLimits :=
  ((checkEntry cfg now (t.getRateLimitEntry ip now)).1, t.update ip now fun e => (checkEntry cfg now e).2)

/-- `ratelimit_record_auth_failure` -/
def ratelimitRecordAuthFailure (cfg : RateLimitConfig) (ip : IpText) (now : Int) (t : RateLimits) : RateLimits :=
  if cfg.rateLimitEnabled then t.update ip now (failEntry now) else t

/-- `ratelimit_release_ip` -/
def ratelimitReleaseIp (ip : IpText) (now : Int) (t : RateLimits) : RateLimits :=
  if ip = noIp then t else t.update ip now releaseEntry

/-! ## What a call does to the table -/

namespace RateLimits
variable {t : RateLimits} {ip : IpText}

/-- The address whose entry `get_rate_limit_entry` returns: `ip` itself, none, or the one that
loses its entry. -/
def holder (t : RateLimits) (ip : IpText) : IpText := (t.entries[t.slot ip]?.getD IpRateLimit.zero).ip

/-- No address has two entries. -/
def Unique (t : RateLimits) : Prop := Distinct IpRateLimit.ip noIp t.entries

theorem find_eq_none : t.find ip = none ↔ ∀ e ∈ t.entries, e.ip ≠ ip := lookup_eq_none

theorem find_ip {e : IpRateLimit} (h : t.find ip = some e) : e.ip = ip := key_of_lookup h

theorem slot_cases (t : RateLimits) (ip : IpText) : ∃ e, t.entries[t.slot ip]? = some e ∧
    (e.ip = ip ∨
      t.find ip = none ∧ (e.ip = noIp ∨ e.activeConnections = 0 ∨ ∀ e' ∈ t.entries, e'.activeConnections ≠ 0)) := by
  unfold slot
  split
  · rename_i i hi
    obtain ⟨hlt, hip, -⟩ := List.findIdx?_eq_some_iff_getElem.1 hi
    exact ⟨_, List.getElem?_eq_getElem hlt, .inl (by simpa using hip)⟩
  · rename_i hnone
    have hfind : t.find ip = none := find_eq_none.2 (by simpa using List.findIdx?_eq_none_iff.1 hnone)
    split
    · rename_i i hi
      obtain ⟨hlt, hip, -⟩ := List.findIdx?_eq_some_iff_getElem.1 hi
      exact ⟨_, List.getElem?_eq_getElem hlt, .inr ⟨hfind, .inl (by simpa using hip)⟩⟩
    · split
      · rename_i i hi
        obtain ⟨e, he, hactive⟩ := firstMin_some hi
        exact ⟨e, he, .inr ⟨hfind, .inr (.inl (by simpa using hactive))⟩⟩
      · rename_i hactive
        have hall : ∀ e' ∈ t.entries, e'.activeConnections ≠ 0 := by simpa using firstMin_none hactive
        rcases hi : firstMin (fun _ => true) (·.windowStart) t.entries with _ | i
        · have hlt : 0 < t.entries.length := by rw [t.length_eq]; decide
          have := firstMin_none hi _ (List.getElem_mem hlt)
          simp at this
        · obtain ⟨e, he, -⟩ := firstMin_some hi
          exact ⟨e, by rw [hi]; exact he, .inr ⟨hfind, .inr (.inr hall)⟩⟩

/-- No other slot has the address that a call is for. -/
theorem slot_only (hu : t.Unique) (hip : ip ≠ noIp) (j : Nat) (e : IpRateLimit) (hj : t.entries[j]? = some e)
    (he : e.ip = ip) : j = t.slot ip := by
  obtain ⟨e', he', hcases⟩ := t.slot_cases ip
  rcases hcases with heq | ⟨hnone, -⟩
  · exact hu j (t.slot ip) e e' hj he' (he.trans heq.symm) (he ▸ hip)
  · exact absurd he (find_eq_none.1 hnone e (List.mem_iff_getElem?.2 ⟨j, hj⟩))

variable {now : Int} {f : IpRateLimit → IpRateLimit}

theorem getRateLimitEntry_ip (t : RateLimits) (ip : IpText) (now : Int) : (t.getRateLimitEntry ip now).ip = ip := by
  rcases h : t.find ip with _ | e
  · simp [getRateLimitEntry, h]
  · simp [getRateLimitEntry, h, find_ip h]

theorem unique_update (hu : t.Unique) (hip : ip ≠ noIp) (hf : ∀ e, (f e).ip = e.ip) : (t.update ip now f).Unique :=
  Distinct.set hu fun j e hj he => slot_only hu hip j e hj (by rw [he, hf, getRateLimitEntry_ip])

/-- A call changes the entry of its own address, and takes away the one of the address whose slot
it reuses. -/
theorem find_update (hu : t.Unique) (hip : ip ≠ noIp) (hf : ∀ e, (f e).ip = e.ip) {ip' : IpText} (hip' : ip' ≠ noIp) :
    (t.update ip now f).find ip' =
      if ip' = ip then some (f (t.getRateLimitEntry ip now))
      else if ip' = t.holder ip then none
      else t.find ip' := by
  obtain ⟨old, hold, -⟩ := t.slot_cases ip
  have hkey : (f (t.getRateLimitEntry ip now)).ip = ip := by rw [hf, getRateLimitEntry_ip]
  have := lookup_set hu hold (x := f (t.getRateLimitEntry ip now))
    (fun j e hj he => slot_only hu hip j e hj (he.trans hkey)) hip'
  rw [find, update, set, this, hkey, holder, hold]
  rfl

theorem unique_init : init.Unique := by
  intro i j a b hi hj _ ha
  rw [init, List.getElem?_replicate] at hi
  split at hi
  · exact absurd (Option.some.inj hi ▸ rfl) ha
  · simp at hi

end RateLimits

theorem checkEntry_ip (cfg : RateLimitConfig) (now : Int) (e : IpRateLimit) : (checkEntry cfg now e).2.ip = e.ip := by
  simp only [checkEntry]
  split_ifs <;> rfl

theorem failEntry_ip (now : Int) (e : IpRateLimit) : (failEntry now e).ip = e.ip := by
  simp only [failEntry]
  split_ifs <;> rfl

theorem releaseEntry_ip (e : IpRateLimit) : (releaseEntry e).ip = e.ip := by
  simp only [releaseEntry]
  split_ifs <;> rfl

/-! ## Blocks -/

inductive RateCall
  | checkIp (ip : Ip)
  | recordAuthFailure (ip : Ip)
  | releaseIp (ip : Ip)

def RateCall.ip : RateCall → Ip
  | checkIp ip | recordAuthFailure ip | releaseIp ip => ip

/-- The table, and the time of the last call. -/
structure RateState where
  table : RateLimits
  now : Int
  deriving DecidableEq

def RateState.init (now : Int) : RateState := ⟨RateLimits.init, now⟩

/-- The table after a call at time `now`. -/
def RateCall.apply (cfg : RateLimitConfig) (now : Int) (t : RateLimits) : RateCall → RateLimits
  | checkIp ip => (ratelimitCheckIp cfg ip.text now t).2
  | recordAuthFailure ip => ratelimitRecordAuthFailure cfg ip.text now t
  | releaseIp ip => ratelimitReleaseIp ip.text now t

/-- One call, at a time that is not before the last one. -/
def rateStep (cfg : RateLimitConfig) (s : RateState) (e : Int × RateCall) : Option RateState :=
  if e.1 < s.now then none else some ⟨e.2.apply cfg e.1 s.table, e.1⟩

/-- What calls do to the entry of their address. -/
def RateCall.change (cfg : RateLimitConfig) (now : Int) : RateCall → IpRateLimit → IpRateLimit
  | checkIp _ => fun e => (checkEntry cfg now e).2
  | recordAuthFailure _ => failEntry now
  | releaseIp _ => releaseEntry

theorem RateCall.change_ip (cfg : RateLimitConfig) (now : Int) (c : RateCall) (e : IpRateLimit) :
    (c.change cfg now e).ip = e.ip := by
  cases c
  · exact checkEntry_ip cfg now e
  · exact failEntry_ip now e
  · exact releaseEntry_ip e

section Block
variable {cfg : RateLimitConfig} {s s' : RateState} {e : Int × RateCall}

theorem RateCall.apply_eq (henabled : cfg.rateLimitEnabled = true) (now : Int) (t : RateLimits) (c : RateCall) :
    c.apply cfg now t = t.update c.ip.text now (c.change cfg now) := by
  cases c with
  | checkIp ip => rfl
  | recordAuthFailure ip => exact if_pos henabled
  | releaseIp ip => exact if_neg ip.ne

theorem rateStep_some (h : rateStep cfg s e = some s') : s.now ≤ e.1 ∧ s' = ⟨e.2.apply cfg e.1 s.table, e.1⟩ := by
  simp only [rateStep, Option.ite_none_left_eq_some, Option.some.injEq] at h
  exact ⟨by omega, h.2.symm⟩

theorem unique_step (henabled : cfg.rateLimitEnabled = true) (hu : s.table.Unique) (h : rateStep cfg s e = some s') :
    s'.table.Unique := by
  obtain ⟨-, rfl⟩ := rateStep_some h
  rw [RateCall.apply_eq henabled]
  exact RateLimits.unique_update hu e.2.ip.ne (RateCall.change_ip cfg e.1 e.2)

/-- What a call does to the entry of every address. -/
theorem find_step (henabled : cfg.rateLimitEnabled = true) (hu : s.table.Unique) (h : rateStep cfg s e = some s')
    (ip : Ip) : s'.table.find ip.text =
      if ip = e.2.ip then some (e.2.change cfg e.1 (s.table.getRateLimitEntry ip.text e.1))
      else if ip.text = s.table.holder e.2.ip.text then none
      else s.table.find ip.text := by
  obtain ⟨-, rfl⟩ := rateStep_some h
  rw [RateCall.apply_eq henabled, RateLimits.find_update hu e.2.ip.ne (RateCall.change_ip cfg e.1 e.2) ip.ne]
  by_cases hip : ip = e.2.ip
  · rw [if_pos hip, if_pos (congrArg Ip.text hip), hip]
  · rw [if_neg hip, if_neg fun ht => hip (Ip.ext ht)]

/-- A call for another address gives none an entry. -/
theorem absent_step (henabled : cfg.rateLimitEnabled = true) (hu : s.table.Unique) (h : rateStep cfg s e = some s')
    {ip : Ip} (hip : e.2.ip ≠ ip) (hfind : s.table.find ip.text = none) : s'.table.find ip.text = none := by
  rw [find_step henabled hu h, if_neg hip.symm]
  split
  · rfl
  · exact hfind

/-- What holds between calls: no address has two entries, and no block lasts longer than
`BLOCK_DURATION` from the last call. -/
structure RateInv (s : RateState) : Prop where
  unique : s.table.Unique
  bounded : ∀ (ip : Ip) en, s.table.find ip.text = some en → en.isBlocked = true →
    en.blockUntil ≤ s.now + BLOCK_DURATION

/-- A call blocks from now on, or leaves the block as it is. -/
theorem change_blocked (c : RateCall) (now : Int) (en : IpRateLimit) (h : (c.change cfg now en).isBlocked = true) :
    (c.change cfg now en).blockUntil = now + BLOCK_DURATION ∨
      en.isBlocked = true ∧ (c.change cfg now en).blockUntil = en.blockUntil := by
  cases c with
  | checkIp ip =>
    simp only [RateCall.change, checkEntry] at h ⊢
    split_ifs at h ⊢ <;> simp_all
  | recordAuthFailure ip =>
    simp only [RateCall.change, failEntry] at h ⊢
    split_ifs at h ⊢
    · exact .inl rfl
    · exact .inr ⟨h, rfl⟩
  | releaseIp ip =>
    simp only [RateCall.change, releaseEntry] at h ⊢
    split_ifs at h ⊢ <;> exact .inr ⟨h, rfl⟩

theorem rateInv_step (henabled : cfg.rateLimitEnabled = true) (hi : RateInv s) (h : rateStep cfg s e = some s') :
    RateInv s' := by
  obtain ⟨hle, hs'⟩ := rateStep_some h
  have hnow : s'.now = e.1 := by rw [hs']
  refine ⟨unique_step henabled hi.unique h, fun ip en hfind hblocked => ?_⟩
  rw [find_step henabled hi.unique h] at hfind
  rw [hnow]
  split_ifs at hfind with h1 h2
  · obtain rfl := Option.some.inj hfind
    rcases change_blocked e.2 e.1 _ hblocked with hu | ⟨hb, hu⟩
    · exact Int.le_of_eq hu
    · rw [hu]
      -- A fresh entry is not blocked, so that the block was there before.
      rcases hf : s.table.find ip.text with _ | en
      · simp [RateLimits.getRateLimitEntry, hf] at hb
      · have hget : s.table.getRateLimitEntry ip.text e.1 = en := by simp [RateLimits.getRateLimitEntry, hf]
        rw [hget] at hb ⊢
        have := hi.bounded ip en hf hb
        omega
  · have := hi.bounded ip en hfind hblocked
    omega

theorem rateInv_init (now : Int) : RateInv (RateState.init now) where
  unique := RateLimits.unique_init
  bounded ip en hfind hblocked := by
    have hmem := List.mem_of_find?_eq_some hfind
    rw [RateState.init, RateLimits.init] at hmem
    rw [List.eq_of_mem_replicate hmem] at hblocked
    simp [IpRateLimit.zero] at hblocked

theorem rateInv_reachable (henabled : cfg.rateLimitEnabled = true) {now : Int}
    (h : Reachable (rateStep cfg) (RateState.init now) s) : RateInv s :=
  h.inv RateInv (fun _ _ _ hi hs => rateInv_step henabled hi hs) (rateInv_init now)

/-- A check of `ip` before time `until` is refused. -/
def Refuses (cfg : RateLimitConfig) (ip : Ip) (blockUntil : Int) (s : RateState) (e : Int × RateCall) : Prop :=
  e.2 = .checkIp ip → s.now ≤ e.1 → e.1 < blockUntil → (ratelimitCheckIp cfg ip.text e.1 s.table).1 = false

/-- The call does not take the entry of `ip` for another address. -/
def KeepsEntry (ip : Ip) (s : RateState) (e : Int × RateCall) : Prop :=
  e.2.ip = ip ∨ s.table.holder e.2.ip.text ≠ ip.text

/-- `ip` is blocked until some time from `blockUntil` on, or that time has passed. -/
def BlockedFrom (ip : Ip) (blockUntil : Int) (s : RateState) : Prop :=
  blockUntil ≤ s.now ∨ blockUntil ≤ s.now + BLOCK_DURATION ∧
    ∃ en, s.table.find ip.text = some en ∧ en.isBlocked = true ∧ blockUntil ≤ en.blockUntil

theorem checkEntry_blocked (henabled : cfg.rateLimitEnabled = true) {now : Int} {en : IpRateLimit}
    (hb : en.isBlocked = true) (hnow : now < en.blockUntil) : checkEntry cfg now en = (false, en) := by
  simp [checkEntry, henabled, hb, hnow]

theorem change_of_blocked (henabled : cfg.rateLimitEnabled = true) {now blockUntil : Int} {en : IpRateLimit}
    (hb : en.isBlocked = true) (hen : blockUntil ≤ en.blockUntil) (hnow : now < blockUntil)
    (hbound : blockUntil ≤ now + BLOCK_DURATION) (c : RateCall) :
    (c.change cfg now en).isBlocked = true ∧ blockUntil ≤ (c.change cfg now en).blockUntil := by
  cases c with
  | checkIp ip =>
    simp only [RateCall.change, checkEntry_blocked henabled hb (by omega : now < en.blockUntil)]
    exact ⟨hb, hen⟩
  | recordAuthFailure ip =>
    simp only [RateCall.change, failEntry]
    split_ifs
    · exact ⟨rfl, hbound⟩
    · exact ⟨hb, hen⟩
  | releaseIp ip =>
    simp only [RateCall.change, releaseEntry]
    split_ifs <;> exact ⟨hb, hen⟩

/-- A block outlives every call that does not take the entry away. -/
theorem blockedFrom_step (henabled : cfg.rateLimitEnabled = true) {ip : Ip} {blockUntil : Int} (hi : RateInv s)
    (hb : BlockedFrom ip blockUntil s) (hk : KeepsEntry ip s e) (h : rateStep cfg s e = some s') :
    BlockedFrom ip blockUntil s' := by
  obtain ⟨hle, hs'⟩ := rateStep_some h
  have hnow : s'.now = e.1 := by rw [hs']
  unfold BlockedFrom
  rw [hnow]
  by_cases hlt : e.1 < blockUntil
  · right
    rcases hb with hb | ⟨hbound, en, hfind, hblocked, hen⟩
    · omega
    · refine ⟨by omega, ?_⟩
      rw [find_step henabled hi.unique h]
      split_ifs with h1 h2
      · have hget : s.table.getRateLimitEntry ip.text e.1 = en := by simp [RateLimits.getRateLimitEntry, hfind]
        rw [hget]
        exact ⟨_, rfl, change_of_blocked henabled hblocked hen hlt (by omega) e.2⟩
      · rcases hk with hk | hk
        · exact absurd hk.symm h1
        · exact absurd h2.symm hk
      · exact ⟨en, hfind, hblocked, hen⟩
  · exact .inl (Int.not_lt.1 hlt)

/-- An address without entry is let in. -/
theorem checkIp_absent (cfg : RateLimitConfig) {t : RateLimits} {ip : Ip} (hfind : t.find ip.text = none) (now : Int) :
    (ratelimitCheckIp cfg ip.text now t).1 = true := by
  have hconn := cfg.perIp_range.1
  have hrate := cfg.ratePerIp_range.1
  simp only [ratelimitCheckIp, RateLimits.getRateLimitEntry, hfind, Option.getD_none, checkEntry]
  rw [if_neg (by omega)]
  simp only [Bool.false_eq_true, false_and, and_false, if_false]
  split
  · rw [if_neg]
    split <;> simp only [] <;> omega
  · rfl

theorem exec_now_le {ops : List (Int × RateCall)} (h : exec (rateStep cfg) s ops = some s') : s.now ≤ s'.now := by
  induction ops generalizing s with
  | nil => cases h; exact Int.le_refl _
  | cons e ops ih =>
    obtain ⟨t, ht, hrest⟩ := exec_cons_some h
    obtain ⟨hle, rfl⟩ := rateStep_some ht
    exact Int.le_trans hle (ih hrest)

theorem now_le_of_exec {ops : List (Int × RateCall)} {t : Int} {c : RateCall}
    (h : exec (rateStep cfg) s (ops ++ [(t, c)]) = some s') : s.now ≤ t := by
  rw [exec_append, Option.bind_eq_some_iff] at h
  obtain ⟨u, hu, hlast⟩ := h
  obtain ⟨v, hv, -⟩ := exec_cons_some hlast
  exact Int.le_trans (exec_now_le hu) (rateStep_some hv).1

/-- While the checks of an address are refused until its next one, it keeps an entry. -/
theorem refuses_absent (henabled : cfg.rateLimitEnabled = true) {ip : Ip} {blockUntil t : Int} (ht : t < blockUntil)
    {ops : List (Int × RateCall)} (hu : s.table.Unique) (hown : ∀ op ∈ ops, op.2.ip = ip → op.2 = .checkIp ip)
    (hrun : exec (rateStep cfg) s (ops ++ [(t, .checkIp ip)]) = some s')
    (hrefuses : Meets (rateStep cfg) (Refuses cfg ip blockUntil) s (ops ++ [(t, .checkIp ip)])) :
    s.table.find ip.text ≠ none := by
  intro hfind
  induction ops generalizing s with
  | nil =>
    obtain ⟨u, hu', -⟩ := exec_cons_some hrun
    have := hrefuses.1 rfl (rateStep_some hu').1 ht
    rw [checkIp_absent cfg hfind] at this
    cases this
  | cons e ops ih =>
    obtain ⟨u, hstep, hrest⟩ := exec_cons_some hrun
    obtain ⟨hle, hu'⟩ := rateStep_some hstep
    by_cases hip : e.2.ip = ip
    · -- The first check of the address itself would be let in.
      have hlast : e.1 ≤ t := by
        have := now_le_of_exec hrest
        rwa [hu'] at this
      have := hrefuses.1 (hown e List.mem_cons_self hip) hle (by omega)
      rw [checkIp_absent cfg hfind] at this
      cases this
    · refine ih (unique_step henabled hu hstep) (fun op hop => hown op (List.mem_cons_of_mem _ hop)) hrest
        (hrefuses.2 u hstep) (absent_step henabled hu hstep hip hfind)

end Block

/-! ## A block is lost when the table fills up -/

def peerText (n : Nat) : Bytes := lit "2001:db8::" ++ [digit (n / 100 + 1), digit (n / 10), digit n]

theorem copy_peerText (n : Nat) : (CBuf.copy INET6_ADDRSTRLEN (peerText n)).bytes = peerText n := by
  refine CBuf.copy_bytes ?_ ?_
  · have hdigit (k : Nat) : (0 : UInt8) ≠ digit k := fun h => by
      have := congrArg UInt8.toNat h
      rw [toNat_digit] at this
      simp at this
      omega
    have hlit : (0 : UInt8) ∉ lit "2001:db8::" := by decide
    simp [peerText, hlit, hdigit]
  · rw [peerText, List.length_append, show (lit "2001:db8::").length = 10 by decide]
    simp [INET6_ADDRSTRLEN]

/-- `2001:db8::100` and the addresses after it. -/
def peer (n : Nat) : Ip where
  text := CBuf.copy INET6_ADDRSTRLEN (peerText n)
  ne h := by
    have := copy_peerText n
    rw [h] at this
    simp [noIp, peerText] at this

theorem peer_bytes (n : Nat) : (peer n).text.bytes = peerText n := copy_peerText n

theorem peer_injective {m n : Nat} (hm : m < 800) (hn : n < 800) (h : peer m = peer n) : m = n := by
  have hbytes := peer_bytes m
  rw [h, peer_bytes] at hbytes
  simp only [peerText, List.append_cancel_left_eq, List.cons.injEq, and_true] at hbytes
  obtain ⟨h1, h2, h3⟩ := hbytes
  have h1 := congrArg UInt8.toNat h1
  have h2 := congrArg UInt8.toNat h2
  have h3 := congrArg UInt8.toNat h3
  rw [toNat_digit, toNat_digit] at h1 h2 h3
  omega

/-- What is read where no variable is set. -/
def defaultConfig : RateLimitConfig where
  maxConnections := TNT_CONFIG_MAX_CONNECTIONS.fallback
  maxConnPerIp := TNT_CONFIG_MAX_CONN_PER_IP.fallback
  maxConnRatePerIp := TNT_CONFIG_MAX_CONN_RATE_PER_IP.fallback
  rateLimitEnabled := TNT_CONFIG_RATE_LIMIT.fallback ≠ 0
  connections_range := TNT_CONFIG_MAX_CONNECTIONS.fallback_range
  perIp_range := TNT_CONFIG_MAX_CONN_PER_IP.fallback_range
  ratePerIp_range := TNT_CONFIG_MAX_CONN_RATE_PER_IP.fallback_range

/-- Five wrong passwords in one session, which then ends. -/
def wrongPasswords : List (Int × RateCall) :=
  (0, .checkIp (peer 0)) :: List.replicate 5 (0, .recordAuthFailure (peer 0)) ++ [(0, .releaseIp (peer 0))]

/-- The first address is blocked for 300 seconds. -/
def blockedState : RateState := ⟨RateLimits.init.set 0 ⟨(peer 0).text, 0, 1, 0, 5, true, 300⟩, 0⟩

theorem exec_wrongPasswords : exec (rateStep defaultConfig) (RateState.init 0) wrongPasswords = some blockedState := by
  decide +kernel

/-- The addresses in `ips` each open a connection. -/
def connects (now : Int) (ips : List Ip) : List (Int × RateCall) := ips.map fun ip => (now, .checkIp ip)

/-- What the other addresses have done to the blocked one so far. -/
structure Filling (blocked : Ip) (connected waiting : List Ip) (s : RateState) : Prop where
  unique : s.table.Unique
  waiting : ∀ ip ∈ waiting, s.table.find ip.text = none
  filled : s.table.find blocked.text = none ∨
    (∃ en, s.table.find blocked.text = some en ∧ en.activeConnections = 0) ∧
      ∀ ip ∈ connected, ∃ en, s.table.find ip.text = some en ∧ en.activeConnections ≠ 0

theorem fresh_active (cfg : RateLimitConfig) {t : RateLimits} {ip : Ip} (hfind : t.find ip.text = none) (now : Int) :
    (checkEntry cfg now (t.getRateLimitEntry ip.text now)).2.activeConnections = 1 := by
  have hconn := cfg.perIp_range.1
  have hrate := cfg.ratePerIp_range.1
  simp only [RateLimits.getRateLimitEntry, hfind, Option.getD_none, checkEntry]
  rw [if_neg (by omega)]
  simp only [Bool.false_eq_true, false_and, and_false, if_false]
  split
  · rw [if_neg]
    · split <;> rfl
    · split <;> simp only [] <;> omega
  · rfl

theorem filling_step {cfg : RateLimitConfig} (henabled : cfg.rateLimitEnabled = true) {blocked ip : Ip}
    {connected waiting : List Ip} {s : RateState} {now : Int} (hnow : s.now ≤ now)
    (h : Filling blocked connected (ip :: waiting) s) (hne : ip ≠ blocked) (hnodup : ip ∉ waiting) :
    ∃ s', rateStep cfg s (now, .checkIp ip) = some s' ∧ s'.now = now ∧
      Filling blocked (ip :: connected) waiting s' := by
  refine ⟨_, if_neg (by omega), rfl, ?_⟩
  generalize hs' : (RateState.mk (RateCall.apply cfg now s.table (.checkIp ip)) now) = s'
  have hstep : rateStep cfg s (now, .checkIp ip) = some s' := by
    rw [← hs']
    exact if_neg (by omega)
  have habsent := h.waiting ip List.mem_cons_self
  have hfs (ip' : Ip) : s'.table.find ip'.text =
      if ip' = ip then some (checkEntry cfg now (s.table.getRateLimitEntry ip'.text now)).2
      else if ip'.text = s.table.holder ip.text then none
      else s.table.find ip'.text := find_step henabled h.unique hstep ip'
  refine ⟨unique_step henabled h.unique hstep, fun ip' hip' => ?_, ?_⟩
  · exact absent_step henabled h.unique hstep (ne_of_mem_of_not_mem hip' hnodup).symm
      (h.waiting ip' (List.mem_cons_of_mem _ hip'))
  · rcases h.filled with hgone | ⟨⟨en, hfind, hactive⟩, hconnected⟩
    · exact .inl (absent_step henabled h.unique hstep hne hgone)
    · -- The blocked address has the only entry that a call can take from an active table.
      obtain ⟨e, he, hcases⟩ := s.table.slot_cases ip.text
      have hholder : s.table.holder ip.text = e.ip := by rw [RateLimits.holder, he]; rfl
      have hinactive : e.ip = noIp ∨ e.activeConnections = 0 := by
        rcases hcases with hip | ⟨-, h1 | h1 | h1⟩
        · exact absurd (hip ▸ rfl) (RateLimits.find_eq_none.1 habsent e (List.mem_iff_getElem?.2 ⟨_, he⟩))
        · exact .inl h1
        · exact .inr h1
        · exact absurd hactive (h1 en (List.mem_of_find?_eq_some hfind))
      by_cases htaken : blocked.text = e.ip
      · left
        rw [hfs, if_neg (Ne.symm hne), hholder, if_pos htaken]
      · right
        refine ⟨⟨en, ?_, hactive⟩, fun ip' hip' => ?_⟩
        · rw [hfs, if_neg (Ne.symm hne), hholder, if_neg htaken, hfind]
        · rw [hfs]
          split
          · rename_i hsame
            refine ⟨_, rfl, ?_⟩
            rw [hsame, fresh_active cfg habsent]
            decide
          · rename_i hother
            rcases List.mem_cons.1 hip' with hsame | hmem
            · exact absurd hsame hother
            · obtain ⟨en', hfind', hactive'⟩ := hconnected ip' hmem
              rw [hholder, if_neg]
              · exact ⟨en', hfind', hactive'⟩
              · intro hlost
                rcases hinactive with h0 | h0
                · exact ip'.ne (hlost.trans h0)
                · have := (lookup_eq_some h.unique ip'.ne).2 ⟨_, he, hlost.symm⟩
                  rw [RateLimits.find, this] at hfind'
                  exact hactive' (Option.some.inj hfind' ▸ h0)

theorem filling_run {cfg : RateLimitConfig} (henabled : cfg.rateLimitEnabled = true) {blocked : Ip}
    {connected waiting : List Ip} {s : RateState} {now : Int} (hnow : s.now ≤ now)
    (h : Filling blocked connected waiting s) (hne : blocked ∉ waiting) (hnodup : waiting.Nodup) :
    ∃ s', exec (rateStep cfg) s (connects now waiting) = some s' ∧ s'.now ≤ now ∧
      Filling blocked (waiting.reverse ++ connected) [] s' := by
  induction waiting generalizing connected s with
  | nil => exact ⟨s, rfl, hnow, h⟩
  | cons ip waiting ih =>
    simp only [List.mem_cons, not_or] at hne
    obtain ⟨u, hstep, hu, hfill⟩ := filling_step henabled hnow h (Ne.symm hne.1) (List.nodup_cons.1 hnodup).1
    obtain ⟨s', hrun, hle, hend⟩ := ih (Int.le_of_eq hu) hfill hne.2 (List.nodup_cons.1 hnodup).2
    refine ⟨s', ?_, hle, by simpa using hend⟩
    rw [connects, List.map_cons, exec_cons, hstep]
    exact hrun

/-- No table has entries for more addresses than it has slots. -/
theorem length_le_of_found {t : RateLimits} {ips : List Ip} (hnodup : ips.Nodup)
    (hfound : ∀ ip ∈ ips, t.find ip.text ≠ none) : ips.length ≤ MAX_TRACKED_IPS := by
  have htexts : (ips.map Ip.text).Nodup := hnodup.map fun a b => Ip.ext
  have hsub : ips.map Ip.text ⊆ t.entries.map IpRateLimit.ip := by
    intro x hx
    obtain ⟨ip, hip, rfl⟩ := List.mem_map.1 hx
    obtain ⟨en, hen⟩ := Option.ne_none_iff_exists'.1 (hfound ip hip)
    exact List.mem_map.2 ⟨en, List.mem_of_find?_eq_some hen, RateLimits.find_ip hen⟩
  simpa [t.length_eq] using htexts.length_le_of_subset hsub

/-- When as many addresses as there are slots open connections, an address without any loses its
entry, and with it its block. -/
theorem block_forgotten {cfg : RateLimitConfig} (henabled : cfg.rateLimitEnabled = true) {blocked : Ip}
    {ips : List Ip} {s : RateState} {now : Int} (hnow : s.now ≤ now) (h : Filling blocked [] ips s)
    (hnodup : (blocked :: ips).Nodup) (hlen : MAX_TRACKED_IPS ≤ ips.length) :
    ∃ s', exec (rateStep cfg) s (connects now ips) = some s' ∧ s'.now ≤ now ∧
      (ratelimitCheckIp cfg blocked.text now s'.table).1 = true := by
  obtain ⟨hne, hnodup'⟩ := List.nodup_cons.1 hnodup
  obtain ⟨s', hrun, hle, hend⟩ := filling_run henabled hnow h hne hnodup'
  refine ⟨s', hrun, hle, checkIp_absent cfg ?_ now⟩
  rcases hend.filled with hgone | ⟨⟨en, hfind, -⟩, hconnected⟩
  · exact hgone
  · exfalso
    have := length_le_of_found (t := s'.table) hnodup fun ip hip => by
      rcases List.mem_cons.1 hip with rfl | hip
      · rw [hfind]
        simp
      · obtain ⟨en', hfind', -⟩ := hconnected ip (by simpa using hip)
        rw [hfind']
        simp
    rw [List.length_cons] at this
    omega

/-! ## When a block holds -/

/-- A block holds until its time, if and only if no call for another address takes the entry of the
blocked one. -/
theorem block_holds_iff (cfg : RateLimitConfig) (henabled : cfg.rateLimitEnabled = true) (start : Int)
    (s s' : RateState) (hs : Reachable (rateStep cfg) (RateState.init start) s) (ip : Ip) (blockUntil : Int)
    (hblocked : ∃ en, s.table.find ip.text = some en ∧ en.isBlocked = true ∧ en.blockUntil = blockUntil)
    (ops : List (Int × RateCall)) (t : Int) (ht : t < blockUntil)
    (hrun : exec (rateStep cfg) s (ops ++ [(t, .checkIp ip)]) = some s') :
    (Meets (rateStep cfg) (KeepsEntry ip) s ops →
        Meets (rateStep cfg) (Refuses cfg ip blockUntil) s (ops ++ [(t, .checkIp ip)])) ∧
      ((∀ op ∈ ops, op.2.ip = ip → op.2 = .checkIp ip) →
        Meets (rateStep cfg) (Refuses cfg ip blockUntil) s (ops ++ [(t, .checkIp ip)]) →
        Meets (rateStep cfg) (KeepsEntry ip) s ops) := by
  have hinv := rateInv_reachable henabled hs
  constructor
  · intro hkeeps
    have hkeeps' : Meets (rateStep cfg) (KeepsEntry ip) s (ops ++ [(t, .checkIp ip)]) :=
      meets_append.2 ⟨hkeeps, fun u _ => ⟨.inl rfl, fun _ _ => trivial⟩⟩
    refine meets_of_inv (fun u => RateInv u ∧ BlockedFrom ip blockUntil u)
      (fun u e u' hu hk hstep => ⟨rateInv_step henabled hu.1 hstep, blockedFrom_step henabled hu.1 hu.2 hk hstep⟩)
      (fun u e hu _ hcheck hle hlt => ?_) ⟨hinv, .inr ?_⟩ hkeeps'
    · rcases hu.2 with hpast | ⟨-, en, hfind, hb, hen⟩
      · omega
      · simp only [ratelimitCheckIp, RateLimits.getRateLimitEntry, hfind, Option.getD_some]
        rw [checkEntry_blocked henabled hb (by omega)]
    · obtain ⟨en, hfind, hb, hen⟩ := hblocked
      exact ⟨hen ▸ hinv.bounded ip en hfind hb, en, hfind, hb, Int.le_of_eq hen.symm⟩
  · intro hown hrefuses
    clear hblocked
    have hu := hinv.unique
    clear hinv hs
    induction ops generalizing s with
    | nil => trivial
    | cons e ops ih =>
      obtain ⟨u, hstep, hrest⟩ := exec_cons_some hrun
      have hu' := unique_step henabled hu hstep
      have hown' : ∀ op ∈ ops, op.2.ip = ip → op.2 = .checkIp ip := fun op hop => hown op (List.mem_cons_of_mem _ hop)
      refine ⟨?_, fun v hv => ?_⟩
      · by_cases hip : e.2.ip = ip
        · exact .inl hip
        · refine .inr fun htaken => refuses_absent henabled ht hu' hown' hrest (hrefuses.2 u hstep) ?_
          rw [find_step henabled hu hstep, if_neg fun h => hip h.symm, if_pos htaken.symm]
      · obtain rfl : u = v := Option.some.inj (hstep.symm.trans hv)
        exact ih u hrest hown' (hrefuses.2 u hstep) hu'

/-- The check of another address leaves the first one blocked. -/
theorem block_holds_iff_one_other :
    Meets (rateStep defaultConfig) (Refuses defaultConfig (peer 0) 300) blockedState
      [(1, .checkIp (peer 1)), (2, .checkIp (peer 0))] := by
  refine (block_holds_iff defaultConfig rfl 0 blockedState _ ⟨_, exec_wrongPasswords⟩ (peer 0) 300
    ⟨⟨(peer 0).text, 0, 1, 0, 5, true, 300⟩, by decide +kernel, rfl, rfl⟩ [(1, .checkIp (peer 1))] 2 (by decide)
    (Option.eq_some_of_isSome (by decide +kernel))).1 ⟨.inr ?_, fun _ _ => trivial⟩
  decide +kernel

/-- In a run of the default configuration, an address is let in one second after it was blocked for
300 seconds, because 256 others connected. -/
theorem block_forgotten_after_256 :
    ∃ (ops : List (Int × RateCall)) (s' : RateState),
      Reachable (rateStep defaultConfig) (RateState.init 0) blockedState ∧
      (∃ en, blockedState.table.find (peer 0).text = some en ∧ en.isBlocked = true ∧ en.blockUntil = 300) ∧
      (∀ op ∈ ops, op.2.ip ≠ peer 0) ∧
      exec (rateStep defaultConfig) blockedState ops = some s' ∧ s'.now ≤ 1 ∧
      (ratelimitCheckIp defaultConfig (peer 0).text 1 s'.table).1 = true := by
  obtain ⟨ips, hips⟩ : ∃ ips, ips = (List.range 256).map fun n => peer (n + 1) := ⟨_, rfl⟩
  have hmem (ip : Ip) (h : ip ∈ ips) : ∃ n < 256, ip = peer (n + 1) := by
    rw [hips] at h
    obtain ⟨n, hn, rfl⟩ := List.mem_map.1 h
    exact ⟨n, List.mem_range.1 hn, rfl⟩
  have hne (n : Nat) (hn : n < 256) : peer (n + 1) ≠ peer 0 := fun h =>
    absurd (peer_injective (by omega) (by omega) h) (by omega)
  have hnodup : (peer 0 :: ips).Nodup := by
    refine List.nodup_cons.2 ⟨fun h => ?_, ?_⟩
    · obtain ⟨n, hn, he⟩ := hmem _ h
      exact hne n hn he.symm
    · rw [hips]
      refine List.Nodup.map_on (fun a ha b hb hab => ?_) List.nodup_range
      have := peer_injective (by have := List.mem_range.1 ha; omega) (by have := List.mem_range.1 hb; omega) hab
      omega
  have hreach : Reachable (rateStep defaultConfig) (RateState.init 0) blockedState := ⟨_, exec_wrongPasswords⟩
  have hentry : blockedState.table.find (peer 0).text = some ⟨(peer 0).text, 0, 1, 0, 5, true, 300⟩ := by decide +kernel
  have hfill : Filling (peer 0) [] ips blockedState := by
    refine ⟨(rateInv_reachable rfl hreach).unique, fun ip hip => ?_, .inr ⟨⟨_, hentry, rfl⟩, by simp⟩⟩
    obtain ⟨n, hn, rfl⟩ := hmem ip hip
    apply RateLimits.find_eq_none.2
    intro e he hip
    rcases List.mem_or_eq_of_mem_set he with he | rfl
    · rw [List.eq_of_mem_replicate he] at hip
      exact (peer (n + 1)).ne hip.symm
    · exact hne n hn (Ip.ext hip.symm)
  obtain ⟨s', hrun, hle, hok⟩ :=
    @block_forgotten defaultConfig rfl _ _ _ _ (by decide : blockedState.now ≤ 1) hfill hnodup
    (by rw [hips]; simp [MAX_TRACKED_IPS])
  refine ⟨connects 1 ips, s', hreach, ⟨_, hentry, rfl, rfl⟩, fun op hop => ?_, hrun, hle, hok⟩
  obtain ⟨ip, hip, rfl⟩ := List.mem_map.1 hop
  obtain ⟨n, hn, rfl⟩ := hmem ip hip
  exact hne n hn

end Tnt
