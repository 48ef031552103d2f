import Tnt.RateLimit
import Tnt.Lib.CountWindows
/-!
# What the limits per address come to over a run (`ratelimit.c`)

The entry of an address holds two counters. The one of its connections begins
anew with the first check that comes `RATE_LIMIT_WINDOW` or more behind the last
beginning; the one of its failed logins begins anew only when a check finds that
a block has run out. Each counter is compared with what really came in the
interval that it is meant to count.
-/
open BaseLib

namespace Tnt

/-! ## Connections -/

/-- A check of `ip` that is let in: when, and whether it began a new count. -/
def letIn (cfg : RateLimitConfig) (ip : Ip) (s : RateState) (e : Int × RateCall) : List (Int × Bool) :=
  match e.2 with
  | .checkIp ip' =>
    if ip' = ip ∧ (ratelimitCheckIp cfg ip.text e.1 s.table).1 = true then
      [(e.1, decide (RATE_LIMIT_WINDOW ≤ e.1 - (s.table.getRateLimitEntry ip.text e.1).windowStart))]
    else []
  | _ => []

/-- No call takes the entry of `ip` for another address, and the first call for `ip` itself is a check. -/
def OwnEntry (ip : Ip) (s : RateState) (e : Int × RateCall) : Prop :=
  if e.2.ip = ip then e.2 = .checkIp ip ∨ s.table.find ip.text ≠ none else s.table.holder e.2.ip.text ≠ ip.text

/-- What a check does to the count of connections. -/
inductive CheckCounts (cfg : RateLimitConfig) (now : Int) (en : IpRateLimit) : Bool → IpRateLimit → Prop
  | refused {en'} (hstart : en'.windowStart = en.windowStart)
      (hcount : en.recentConnectionCount ≤ en'.recentConnectionCount) : CheckCounts cfg now en false en'
  | renewed {en'} (hover : RATE_LIMIT_WINDOW ≤ now - en.windowStart) (hstart : en'.windowStart = now)
      (hcount : en'.recentConnectionCount = 1) : CheckCounts cfg now en true en'
  | counted {en'} (hopen : now - en.windowStart < RATE_LIMIT_WINDOW) (hstart : en'.windowStart = en.windowStart)
      (hcount : en'.recentConnectionCount = en.recentConnectionCount + 1)
      (hlimit : en'.recentConnectionCount ≤ cfg.maxConnRatePerIp) : CheckCounts cfg now en true en'

theorem checkEntry_counts {cfg : RateLimitConfig} (henabled : cfg.rateLimitEnabled = true) (now : Int)
    (en : IpRateLimit) : CheckCounts cfg now en (checkEntry cfg now en).1 (checkEntry cfg now en).2 := by
  have hrate := cfg.ratePerIp_range.1
  unfold checkEntry
  by_cases hfull : en.activeConnections ≥ cfg.maxConnPerIp
  · rw [if_pos hfull]
    exact .refused rfl (Int.le_refl _)
  rw [if_neg hfull]
  by_cases hblocked : cfg.rateLimitEnabled = true ∧ en.isBlocked = true ∧ now < en.blockUntil
  · rw [if_pos hblocked]
    exact .refused rfl (Int.le_refl _)
  rw [if_neg hblocked]
  -- A block that has run out changes nothing that is counted here.
  obtain ⟨en₁, hen₁, hstart, hcount⟩ : ∃ en₁, (if cfg.rateLimitEnabled = true ∧ en.isBlocked = true ∧
      now ≥ en.blockUntil then { en with isBlocked := false, authFailureCount := 0 } else en) = en₁ ∧
      en₁.windowStart = en.windowStart ∧ en₁.recentConnectionCount = en.recentConnectionCount := by
    refine ⟨_, rfl, ?_, ?_⟩ <;> split <;> rfl
  simp only [hen₁]
  rw [if_pos henabled]
  by_cases hover : now - en₁.windowStart ≥ RATE_LIMIT_WINDOW
  · have hfits : ¬ 0 + 1 > cfg.maxConnRatePerIp := by omega
    simp only [if_pos hover, if_neg hfits]
    exact .renewed (by omega) rfl rfl
  · simp only [if_neg hover]
    by_cases hlimit : en₁.recentConnectionCount + 1 > cfg.maxConnRatePerIp
    · rw [if_pos hlimit]
      exact .refused hstart (by simp only []; omega)
    · rw [if_neg hlimit]
      exact .counted (by omega) hstart (by simp only []; omega) (by simp only []; omega)

/-- The windows that the checks of `ip` let in so far make up, `log` being these checks. -/
structure Counting (cfg : RateLimitConfig) (ip : Ip) (s : RateState) (log : List (Int × Bool))
    (ws : List CountWindow) : Prop where
  windowed : Windowed RATE_LIMIT_WINDOW cfg.maxConnRatePerIp.toNat ws
  times : log.map Prod.fst = CountWindow.all ws
  renewed : ∀ w ∈ ws, ∀ v ∈ ws, v.start < w.start → (w.start, true) ∈ log
  entry : s.table.find ip.text = none ∧ ws = [] ∨
    ∃ en w rest, s.table.find ip.text = some en ∧ ws = w :: rest ∧ w.start = en.windowStart ∧
      (w.times.length : Int) ≤ en.recentConnectionCount ∧ en.windowStart ≤ s.now

section Count
variable {cfg : RateLimitConfig} {ip : Ip} {s s' : RateState} {e : Int × RateCall} {log : List (Int × Bool)}
  {ws : List CountWindow}

/-- A call that changes neither window nor count of `ip`, or only raises the count. -/
theorem Counting.idle (hc : Counting cfg ip s log ws) (hle : s.now ≤ s'.now)
    (hnone : s.table.find ip.text = none → s'.table.find ip.text = none)
    (hsome : ∀ en, s.table.find ip.text = some en → ∃ en', s'.table.find ip.text = some en' ∧
      en'.windowStart = en.windowStart ∧ en.recentConnectionCount ≤ en'.recentConnectionCount) :
    Counting cfg ip s' log ws := by
  refine ⟨hc.windowed, hc.times, hc.renewed, ?_⟩
  rcases hc.entry with ⟨hfind, hws⟩ | ⟨en, w, rest, hfind, hws, hstart, hcount, hnow⟩
  · exact .inl ⟨hnone hfind, hws⟩
  · obtain ⟨en', hfind', hstart', hcount'⟩ := hsome en hfind
    exact .inr ⟨en', w, rest, hfind', hws, by omega, by omega, by omega⟩

/-- The latest window began with the newest entry of the log. -/
theorem renewed_renew {now : Int} (hrenewed : ∀ w ∈ ws, ∀ v ∈ ws, v.start < w.start → (w.start, true) ∈ log)
    (hlate : ∀ w ∈ ws, w.start ≤ now) :
    ∀ w ∈ (⟨now, [now]⟩ : CountWindow) :: ws, ∀ v ∈ (⟨now, [now]⟩ : CountWindow) :: ws,
      v.start < w.start → (w.start, true) ∈ (now, true) :: log := by
  intro w hw v hv hlt
  rcases List.mem_cons.1 hw with rfl | hw
  · exact List.mem_cons_self
  · rcases List.mem_cons.1 hv with rfl | hv
    · exact absurd (hlate w hw) (Int.not_le.2 hlt)
    · exact List.mem_cons_of_mem _ (hrenewed w hw v hv hlt)

/-- A window that lets one more in began where it began before. -/
theorem renewed_add {w : CountWindow} (x : Int × Bool) (times : List Int)
    (hrenewed : ∀ u ∈ w :: ws, ∀ v ∈ w :: ws, v.start < u.start → (u.start, true) ∈ log) :
    ∀ u ∈ (⟨w.start, times⟩ : CountWindow) :: ws, ∀ v ∈ (⟨w.start, times⟩ : CountWindow) :: ws,
      v.start < u.start → (u.start, true) ∈ x :: log := by
  have hold : ∀ u ∈ (⟨w.start, times⟩ : CountWindow) :: ws, ∃ u' ∈ w :: ws, u'.start = u.start := by
    refine List.forall_mem_cons.2 ⟨⟨w, List.mem_cons_self, rfl⟩, ?_⟩
    exact fun u hu => ⟨u, List.mem_cons_of_mem _ hu, rfl⟩
  intro u hu v hv hlt
  obtain ⟨u', hu', hus⟩ := hold u hu
  obtain ⟨v', hv', hvs⟩ := hold v hv
  rw [← hus, ← hvs] at hlt
  rw [← hus]
  exact List.mem_cons_of_mem _ (hrenewed u' hu' v' hv' hlt)

/-- A check of `ip` itself. -/
theorem Counting.check (hc : Counting cfg ip s log ws) (henabled : cfg.rateLimitEnabled = true) {now : Int}
    (hle : s.now ≤ now) (hnow : s'.now = now)
    (hfind : s'.table.find ip.text = some (checkEntry cfg now (s.table.getRateLimitEntry ip.text now)).2) :
    ∃ ws', Counting cfg ip s' ((letIn cfg ip s (now, .checkIp ip)).foldl (fun log x => x :: log) log) ws' := by
  have hrate := cfg.ratePerIp_range.1
  have hlen : 0 < RATE_LIMIT_WINDOW := by decide
  have hlimit : 0 < cfg.maxConnRatePerIp.toNat := by omega
  have hlet : letIn cfg ip s (now, .checkIp ip) =
      if (checkEntry cfg now (s.table.getRateLimitEntry ip.text now)).1 = true then
        [(now, decide (RATE_LIMIT_WINDOW ≤ now - (s.table.getRateLimitEntry ip.text now).windowStart))]
      else [] := by
    simp [letIn, ratelimitCheckIp]
  rw [hlet]
  have hcounts := checkEntry_counts henabled now (s.table.getRateLimitEntry ip.text now)
  generalize hen : s.table.getRateLimitEntry ip.text now = en at hfind hcounts ⊢
  generalize hok : (checkEntry cfg now en).1 = ok at hcounts ⊢
  generalize (checkEntry cfg now en).2 = en' at hfind hcounts
  rcases hc.entry with ⟨habsent, rfl⟩ | ⟨en₀, w, rest, hpresent, rfl, hstart, hcount, hbegan⟩
  · -- The entry is new, and with it the window.
    obtain rfl : log = [] := List.map_eq_nil_iff.1 hc.times
    have hfresh : en = ⟨ip.text, now, 0, 0, 0, false, 0⟩ := by simp [← hen, RateLimits.getRateLimitEntry, habsent]
    cases hcounts with
    | refused => exact absurd (checkIp_absent cfg habsent now) (by simp [ratelimitCheckIp, hen, hok])
    | renewed hover => simp [hfresh, RATE_LIMIT_WINDOW] at hover
    | counted hopen hstart' hcount' =>
      refine ⟨[⟨now, [now]⟩], windowed_single hlen hlimit, rfl, ?_, ?_⟩
      · simp
      · exact .inr ⟨en', ⟨now, [now]⟩, [], hfind, rfl, by simp [hstart', hfresh], by simp [hcount', hfresh],
          by simp [hstart', hfresh, hnow]⟩
  · have hsame : en = en₀ := by simp [← hen, RateLimits.getRateLimitEntry, hpresent]
    subst hsame
    cases hcounts with
    | refused hstart' hcount' =>
      refine ⟨w :: rest, hc.windowed, hc.times, hc.renewed, .inr ⟨en', w, rest, hfind, rfl, ?_, ?_, ?_⟩⟩ <;> omega
    | renewed hover hstart' hcount' =>
      have hflag : decide (RATE_LIMIT_WINDOW ≤ now - en.windowStart) = true := decide_eq_true hover
      have hnew := hc.windowed.renew hlen hlimit (by omega : w.start + RATE_LIMIT_WINDOW ≤ now)
      rw [if_pos rfl, hflag]
      refine ⟨⟨now, [now]⟩ :: w :: rest, hnew, ?_, ?_, ?_⟩
      · exact congrArg (now :: ·) hc.times
      · apply renewed_renew hc.renewed
        intro u hu
        have hover : u.start + RATE_LIMIT_WINDOW ≤ now := (List.pairwise_cons.1 hnew.spaced).1 u hu
        omega
      · exact .inr ⟨en', ⟨now, [now]⟩, w :: rest, hfind, rfl, hstart'.symm, by simp [hcount'], by omega⟩
    | counted hopen hstart' hcount' hlimit' =>
      rw [if_pos rfl]
      refine ⟨⟨w.start, now :: w.times⟩ :: rest, hc.windowed.add (by omega) (by omega) (by omega), ?_, ?_, ?_⟩
      · exact congrArg (now :: ·) hc.times
      · exact renewed_add _ _ hc.renewed
      · refine .inr ⟨en', _, rest, hfind, rfl, by simp only []; omega, ?_, by omega⟩
        simp only [List.length_cons]
        omega

theorem failEntry_window (now : Int) (en : IpRateLimit) : (failEntry now en).windowStart = en.windowStart ∧
    (failEntry now en).recentConnectionCount = en.recentConnectionCount := by
  simp only [failEntry]
  split <;> exact ⟨rfl, rfl⟩

theorem releaseEntry_window (en : IpRateLimit) : (releaseEntry en).windowStart = en.windowStart ∧
    (releaseEntry en).recentConnectionCount = en.recentConnectionCount := by
  unfold releaseEntry
  split <;> exact ⟨rfl, rfl⟩

theorem letIn_other (h : e.2 ≠ .checkIp ip) : letIn cfg ip s e = [] := by
  obtain ⟨now, c⟩ := e
  cases c with
  | checkIp ip' =>
    have hne : ip' ≠ ip := fun heq => h (congrArg RateCall.checkIp heq)
    exact if_neg fun hc => hne hc.1
  | recordAuthFailure => rfl
  | releaseIp => rfl

/-- A call of `ratelimit_record_auth_failure` or `ratelimit_release_ip`, or one for another address. -/
theorem Counting.other (hc : Counting cfg ip s log ws) (henabled : cfg.rateLimitEnabled = true)
    (hu : s.table.Unique) (hown : OwnEntry ip s e) (hother : e.2 ≠ .checkIp ip) (h : rateStep cfg s e = some s') :
    Counting cfg ip s' log ws := by
  obtain ⟨hle, hs'⟩ := rateStep_some h
  have hnow : s.now ≤ s'.now := by rw [hs']; exact hle
  have hfind := find_step henabled hu h ip
  unfold OwnEntry at hown
  by_cases hip : e.2.ip = ip
  · rw [if_pos hip] at hown
    rw [if_pos hip.symm] at hfind
    apply hc.idle hnow
    · intro hnone
      exact absurd hnone (hown.resolve_left hother)
    · intro en hen
      have hget : s.table.getRateLimitEntry ip.text e.1 = en := by simp [RateLimits.getRateLimitEntry, hen]
      rw [hget] at hfind
      refine ⟨_, hfind, ?_⟩
      cases hcall : e.2 with
      | checkIp ip' => exact absurd (hcall.trans (congrArg RateCall.checkIp (by rw [← hip, hcall]; rfl))) hother
      | recordAuthFailure ip' =>
        obtain ⟨hstart, hcount⟩ := failEntry_window e.1 en
        exact ⟨hstart, Int.le_of_eq hcount.symm⟩
      | releaseIp ip' =>
        obtain ⟨hstart, hcount⟩ := releaseEntry_window en
        exact ⟨hstart, Int.le_of_eq hcount.symm⟩
  · rw [if_neg hip] at hown
    rw [if_neg (Ne.symm hip), if_neg hown.symm] at hfind
    apply hc.idle hnow
    · intro hnone
      rw [hfind, hnone]
    · intro en hen
      exact ⟨en, by rw [hfind, hen], rfl, Int.le_refl _⟩

theorem counting_step (henabled : cfg.rateLimitEnabled = true) (hc : s.table.Unique ∧ ∃ ws, Counting cfg ip s log ws)
    (hown : OwnEntry ip s e) (h : rateStep cfg s e = some s') :
    s'.table.Unique ∧ ∃ ws, Counting cfg ip s' ((letIn cfg ip s e).foldl (fun log x => x :: log) log) ws := by
  obtain ⟨hu, ws, hc⟩ := hc
  refine ⟨unique_step henabled hu h, ?_⟩
  by_cases hcheck : e.2 = .checkIp ip
  · obtain ⟨now, c⟩ := e
    obtain rfl : c = .checkIp ip := hcheck
    obtain ⟨hle, hs'⟩ := rateStep_some h
    apply hc.check henabled hle
    · rw [hs']
    · rw [find_step henabled hu h ip]
      exact if_pos rfl
  · rw [letIn_other hcheck]
    exact ⟨ws, hc.other henabled hu hown hcheck h⟩

theorem counting_init (start : Int) : Counting cfg ip (RateState.init start) [] [] where
  windowed := ⟨List.Pairwise.nil, by simp, by simp, by simp⟩
  times := rfl
  renewed := by simp
  entry := by
    refine .inl ⟨RateLimits.find_eq_none.2 fun en hen => ?_, rfl⟩
    rw [List.eq_of_mem_replicate hen]
    exact ip.ne.symm

end Count

theorem length_inside_reverse (len x : Int) (l : List Int) :
    (inside len x l.reverse).length = (inside len x l).length := by
  rw [inside, inside, List.filter_reverse, List.length_reverse]

/-- An address that keeps its entry is let in less than twice `max_conn_rate_per_ip` times in any
`RATE_LIMIT_WINDOW` seconds, and more than `max_conn_rate_per_ip` times only where its count began
anew behind a check in these seconds that was let in. -/
theorem letIn_per_window (cfg : RateLimitConfig) (henabled : cfg.rateLimitEnabled = true) (start : Int) (ip : Ip)
    (ops : List (Int × RateCall)) (s' : RateState) (hrun : exec (rateStep cfg) (RateState.init start) ops = some s')
    (hown : Meets (rateStep cfg) (OwnEntry ip) (RateState.init start) ops) (x : Int) :
    let checks := heard (rateStep cfg) (letIn cfg ip) (RateState.init start) ops
    let within := inside RATE_LIMIT_WINDOW x (checks.map Prod.fst)
    (within.length : Int) ≤ 2 * cfg.maxConnRatePerIp - 1 ∧
      (cfg.maxConnRatePerIp < within.length →
        ∃ w, (w, true) ∈ checks ∧ w < x + RATE_LIMIT_WINDOW ∧ ∃ a ∈ within, a < w) := by
  intro checks within
  have hrate := cfg.ratePerIp_range.1
  obtain ⟨-, ws, hc⟩ := exec_heard_of_meets
    (fun s (log : List (Int × Bool)) => s.table.Unique ∧ ∃ ws, Counting cfg ip s log ws)
    (fun s e s' log hc ho hs => counting_step henabled hc ho hs)
    ⟨RateLimits.unique_init, [], counting_init start⟩ hown hrun
  have hlog : checks.foldl (fun log x => x :: log) [] = checks.reverse := by simp
  rw [hlog] at hc
  have hall : CountWindow.all ws = (checks.map Prod.fst).reverse := by rw [← hc.times, List.map_reverse]
  have hlength : (inside RATE_LIMIT_WINDOW x (CountWindow.all ws)).length = within.length := by
    rw [hall, length_inside_reverse]
  rcases hc.windowed.inside_cases (x := x) (by decide) with hle | ⟨hle, w, v, ho⟩
  · rw [hlength] at hle
    exact ⟨by omega, fun hlt => by omega⟩
  · rw [hlength] at hle
    refine ⟨by omega, fun _ => ⟨w.start, ?_, ho.starts, ?_⟩⟩
    · exact List.mem_reverse.1 (hc.renewed w ho.mem v ho.older ho.behind)
    · obtain ⟨a, ha, hlt⟩ := ho.entry
      obtain ⟨hmem, hin⟩ := mem_inside.1 ha
      rw [hall, List.mem_reverse] at hmem
      exact ⟨a, mem_inside.2 ⟨hmem, hin⟩, hlt⟩

/-- Two connections per address in 60 seconds. -/
def twoPerMinute : RateLimitConfig := { defaultConfig with maxConnRatePerIp := 2, ratePerIp_range := by decide }

/-- The second connection comes at the end of the first window, two more in the next second. -/
def straddling : List (Int × RateCall) :=
  [(0, .checkIp (peer 0)), (59, .checkIp (peer 0)), (60, .checkIp (peer 0)), (60, .checkIp (peer 0))]

theorem heard_straddling :
    heard (rateStep twoPerMinute) (letIn twoPerMinute (peer 0)) (RateState.init 0) straddling =
      [(0, false), (59, false), (60, true), (60, false)] := by
  decide +kernel

theorem ownEntry_straddling :
    Meets (rateStep twoPerMinute) (OwnEntry (peer 0)) (RateState.init 0) straddling := by
  have hchecks : ∀ op ∈ straddling, op.2 = .checkIp (peer 0) := by simp [straddling]
  refine (meets_of_forall hchecks).mono fun s e he => ?_
  have hip : e.2.ip = peer 0 := by rw [he]; rfl
  unfold OwnEntry
  rw [if_pos hip]
  exact .inl he

theorem letIn_per_window_straddling :
    ∃ s', exec (rateStep twoPerMinute) (RateState.init 0) straddling = some s' ∧
      ∃ w, (w, true) ∈ heard (rateStep twoPerMinute) (letIn twoPerMinute (peer 0)) (RateState.init 0) straddling ∧
        w < 59 + RATE_LIMIT_WINDOW := by
  have hrun : ∃ s', exec (rateStep twoPerMinute) (RateState.init 0) straddling = some s' :=
    Option.isSome_iff_exists.1 (by decide +kernel)
  obtain ⟨s', hs'⟩ := hrun
  obtain ⟨-, hmore⟩ := letIn_per_window twoPerMinute rfl 0 (peer 0) straddling s' hs' ownEntry_straddling 59
  have hlt : twoPerMinute.maxConnRatePerIp < (inside RATE_LIMIT_WINDOW 59
      ((heard (rateStep twoPerMinute) (letIn twoPerMinute (peer 0)) (RateState.init 0) straddling).map
        Prod.fst)).length := by
    rw [heard_straddling]
    decide
  obtain ⟨w, hw, hin, -⟩ := hmore hlt
  exact ⟨s', hs', w, hw, hin⟩

/-- With a limit of two, an address is let in three times within two seconds. -/
theorem straddling_exceeds_the_rate :
    (∀ op ∈ straddling, op.2 = .checkIp (peer 0)) ∧
      (exec (rateStep twoPerMinute) (RateState.init 0) straddling).isSome = true ∧
      twoPerMinute.maxConnRatePerIp < (inside RATE_LIMIT_WINDOW 59
        ((heard (rateStep twoPerMinute) (letIn twoPerMinute (peer 0)) (RateState.init 0) straddling).map
          Prod.fst)).length := by
  refine ⟨by simp [straddling], by decide +kernel, ?_⟩
  rw [heard_straddling]
  decide

/-! ## Failed logins -/

/-- `ip` is blocked at time `now`. -/
def RateState.blocks (s : RateState) (ip : Ip) (now : Int) : Bool :=
  let en := s.table.getRateLimitEntry ip.text now
  en.isBlocked && decide (now < en.blockUntil)

/-- When logins of one address failed, the newest first. -/
structure FailureLog where
  /-- Since its `auth_failure_count` was zero. -/
  counted : List Int
  /-- Since its last block ended. -/
  sinceBlock : List Int
  deriving DecidableEq

/-- The failure of `ip` that a call records. -/
def failureOf (ip : Ip) (e : Int × RateCall) : List Int :=
  match e.2 with
  | .recordAuthFailure ip' => if ip' = ip then [e.1] else []
  | _ => []

/-- The log behind a call that led from `s` to `s'`. -/
def FailureLog.next (ip : Ip) (s s' : RateState) (e : Int × RateCall) (log : FailureLog) : FailureLog where
  counted := if (s'.table.getRateLimitEntry ip.text e.1).authFailureCount = 0 then [] else failureOf ip e ++ log.counted
  sinceBlock := if s.blocks ip e.1 || s'.blocks ip e.1 then [] else failureOf ip e ++ log.sinceBlock

/-- A call, and the failures of `ip` so far. -/
def failureStep (cfg : RateLimitConfig) (ip : Ip) (p : RateState × FailureLog) (e : Int × RateCall) :
    Option (RateState × FailureLog) :=
  (rateStep cfg p.1 e).map fun s' => (s', p.2.next ip p.1 s' e)

/-- A failure that makes `ip` blocked is the last of `MAX_AUTH_FAILURES` or more in the last
`RATE_LIMIT_WINDOW` seconds and since its last block ended. -/
def BlocksOnRecent (cfg : RateLimitConfig) (ip : Ip) (p : RateState × FailureLog) (e : Int × RateCall) : Prop :=
  e.2 = .recordAuthFailure ip → p.1.blocks ip e.1 = false → ∀ s' ∈ rateStep cfg p.1 e, s'.blocks ip e.1 = true →
    MAX_AUTH_FAILURES ≤ (p.2.sinceBlock.filter (e.1 - RATE_LIMIT_WINDOW < ·)).length + 1

/-- Where a failure of an address that is not blocked is one too many for its counter, the failures that
the counter holds all lie in the last `RATE_LIMIT_WINDOW` seconds and behind the end of the last block. -/
def CountsRecent (cfg : RateLimitConfig) (ip : Ip) (p : RateState × FailureLog) (e : Int × RateCall) : Prop :=
  e.2 = .recordAuthFailure ip → p.1.blocks ip e.1 = false → cfg.rateLimitEnabled = true → p.1.now ≤ e.1 →
    MAX_AUTH_FAILURES ≤ p.2.counted.length + 1 → ∀ t ∈ p.2.counted, e.1 - RATE_LIMIT_WINDOW < t ∧
      ((p.1.table.getRateLimitEntry ip.text e.1).isBlocked = true →
        (p.1.table.getRateLimitEntry ip.text e.1).blockUntil ≤ t)

/-- What a call does to the failures that an entry counts, and to its block; `fails` are those it records. -/
inductive FailureEffect (now : Int) (fails : List Int) (en en' : IpRateLimit) : Prop
  | kept (hfails : fails = []) (hcount : en'.authFailureCount = en.authFailureCount)
      (hflag : en'.isBlocked = en.isBlocked) (huntil : en'.blockUntil = en.blockUntil)
  | cleared (hfails : fails = []) (hcount : en'.authFailureCount = 0)
      (hflag : en'.isBlocked = true → now < en'.blockUntil)
  | blocks (hfails : fails = [] ∨ fails = [now]) (hcount : en'.authFailureCount = en.authFailureCount + fails.length)
      (hflag : en'.isBlocked = true) (huntil : now < en'.blockUntil)
  | failed (hfails : fails = [now]) (hcount : en'.authFailureCount = en.authFailureCount + 1)
      (hfew : en'.authFailureCount < MAX_AUTH_FAILURES) (hflag : en'.isBlocked = en.isBlocked)
      (huntil : en'.blockUntil = en.blockUntil)

/-- What an entry says about the failures that led to it. -/
structure FailureInv (en : IpRateLimit) (now : Int) (log : FailureLog) : Prop where
  count : en.authFailureCount = log.counted.length
  past : ∀ t ∈ log.counted, t ≤ now
  sorted : log.sinceBlock.Pairwise (· ≥ ·)
  sincePast : ∀ t ∈ log.sinceBlock, t ≤ now
  unblocked : en.isBlocked = false → log.counted <+: log.sinceBlock ∧ (log.counted.length : Int) < MAX_AUTH_FAILURES
  blocked : en.isBlocked = true → log.sinceBlock = log.counted.filter (en.blockUntil ≤ ·) ∧
    (log.sinceBlock ≠ [] → (log.counted.length : Int) < MAX_AUTH_FAILURES)

section Failures
variable {en en' : IpRateLimit} {now₀ now : Int} {log : FailureLog} {fails counted : List Int}

/-- While a block is in force, no failure lies behind its end. -/
theorem failureInv_of_blocks (hcount : en.authFailureCount = counted.length) (hpast : ∀ t ∈ counted, t ≤ now)
    (hflag : en.isBlocked = true) (huntil : now < en.blockUntil) : FailureInv en now ⟨counted, []⟩ where
  count := hcount
  past := hpast
  sorted := List.Pairwise.nil
  sincePast := by simp
  unblocked h := by simp [hflag] at h
  blocked _ := by
    refine ⟨(List.filter_eq_nil_iff.2 fun t ht => ?_).symm, by simp⟩
    have := hpast t ht
    simp only [decide_eq_true_eq]
    omega

theorem FailureInv.mono (hi : FailureInv en now₀ log) (hnow : now₀ ≤ now) : FailureInv en now log where
  count := hi.count
  past t ht := Int.le_trans (hi.past t ht) hnow
  sorted := hi.sorted
  sincePast t ht := Int.le_trans (hi.sincePast t ht) hnow
  unblocked := hi.unblocked
  blocked := hi.blocked

/-- A call that leaves the entry as it is and records no failure, or one that the entry counts. -/
theorem FailureInv.more (hi : FailureInv en now log) (hfails : fails = [] ∨
      fails = [now] ∧ (log.counted.length + 1 : Int) < MAX_AUTH_FAILURES)
    (hcount : en'.authFailureCount = en.authFailureCount + fails.length) (hflag : en'.isBlocked = en.isBlocked)
    (huntil : en'.blockUntil = en.blockUntil) (hopen : en.isBlocked = true → en.blockUntil ≤ now) :
    FailureInv en' now ⟨fails ++ log.counted, fails ++ log.sinceBlock⟩ := by
  have hrecent : ∀ t ∈ fails, t = now := by rcases hfails with rfl | ⟨rfl, -⟩ <;> simp
  have hall {l : List Int} (hl : ∀ t ∈ l, t ≤ now) : ∀ t ∈ fails ++ l, t ≤ now := by
    intro t ht
    rcases List.mem_append.1 ht with ht | ht
    · exact Int.le_of_eq (hrecent t ht)
    · exact hl t ht
  refine ⟨?_, hall hi.past, ?_, hall hi.sincePast, fun h => ?_, fun h => ?_⟩
  · rw [hcount, hi.count, List.length_append]
    omega
  · rcases hfails with rfl | ⟨rfl, -⟩
    · exact hi.sorted
    · exact List.pairwise_cons.2 ⟨hi.sincePast, hi.sorted⟩
  · obtain ⟨hpre, hfew⟩ := hi.unblocked (hflag ▸ h)
    refine ⟨(List.prefix_append_right_inj fails).2 hpre, ?_⟩
    rcases hfails with rfl | ⟨rfl, hlt⟩
    · exact hfew
    · simpa using hlt
  · rw [huntil]
    obtain ⟨hsince, hfew⟩ := hi.blocked (hflag ▸ h)
    have huntil := hopen (hflag ▸ h)
    have hkeep : fails.filter (en.blockUntil ≤ ·) = fails :=
      List.filter_eq_self.2 fun t ht => decide_eq_true ((hrecent t ht).symm ▸ huntil)
    refine ⟨by rw [List.filter_append, hkeep, ← hsince], fun hne => ?_⟩
    rcases hfails with rfl | ⟨rfl, hlt⟩
    · exact hfew hne
    · simpa using hlt

/-- The log behind a call that records `fails` and makes `en` into `en'`. -/
def FailureLog.after (now : Int) (fails : List Int) (en en' : IpRateLimit) (log : FailureLog) : FailureLog where
  counted := if en'.authFailureCount = 0 then [] else fails ++ log.counted
  sinceBlock :=
    if (en.isBlocked && decide (now < en.blockUntil)) || (en'.isBlocked && decide (now < en'.blockUntil)) then []
    else fails ++ log.sinceBlock

/-- The counter holds the new failures and the old ones, unless it begins anew. -/
theorem FailureInv.counted_after (hi : FailureInv en now₀ log)
    (hcount : en'.authFailureCount = en.authFailureCount + fails.length) :
    (if en'.authFailureCount = 0 then [] else fails ++ log.counted) = fails ++ log.counted ∧
      en'.authFailureCount = (fails ++ log.counted).length := by
  have hlen : en'.authFailureCount = (fails ++ log.counted).length := by
    rw [hcount, hi.count, List.length_append]
    omega
  refine ⟨?_, hlen⟩
  split
  · exact (List.length_eq_zero_iff.1 (by omega)).symm
  · rfl

theorem FailureInv.past_after (hi : FailureInv en now log) (hfails : fails = [] ∨ fails = [now]) :
    ∀ t ∈ fails ++ log.counted, t ≤ now := by
  rcases hfails with rfl | rfl
  · exact hi.past
  · exact List.forall_mem_cons.2 ⟨Int.le_refl _, hi.past⟩

/-- A call that leaves the block alone, in force or not. -/
theorem FailureInv.same (hi : FailureInv en now log) (hfails : fails = [] ∨
      fails = [now] ∧ (log.counted.length + 1 : Int) < MAX_AUTH_FAILURES)
    (hcount : en'.authFailureCount = en.authFailureCount + fails.length) (hflag : en'.isBlocked = en.isBlocked)
    (huntil : en'.blockUntil = en.blockUntil) : FailureInv en' now (log.after now fails en en') := by
  obtain ⟨hcounted, hlen⟩ := hi.counted_after hcount
  rw [FailureLog.after, hcounted, hflag, huntil, Bool.or_self]
  by_cases hb : (en.isBlocked && decide (now < en.blockUntil)) = true
  · rw [if_pos hb]
    rw [Bool.and_eq_true, decide_eq_true_eq] at hb
    exact failureInv_of_blocks hlen (hi.past_after (hfails.imp_right And.left)) (hflag ▸ hb.1) (huntil ▸ hb.2)
  · rw [if_neg hb]
    apply hi.more hfails hcount hflag huntil
    intro hflag
    rw [hflag, Bool.true_and, decide_eq_true_eq] at hb
    exact Int.not_lt.1 hb

/-- A call that sets the counter to zero leaves no block, or one that is in force. -/
theorem FailureInv.zeroed (hi : FailureInv en now log) (hcount : en'.authFailureCount = 0)
    (hflag : en'.isBlocked = true → now < en'.blockUntil) : FailureInv en' now (log.after now [] en en') := by
  have hempty : en'.authFailureCount = ([] : List Int).length := hcount
  rw [FailureLog.after, if_pos hcount]
  cases hblocked : en'.isBlocked with
  | true =>
    rw [Bool.true_and, decide_eq_true (hflag hblocked), Bool.or_true, if_pos rfl]
    exact failureInv_of_blocks hempty (by simp) hblocked (hflag hblocked)
  | false =>
    rw [Bool.false_and, Bool.or_false, List.nil_append]
    have hfresh (l : List Int) (hsorted : l.Pairwise (· ≥ ·)) (hl : ∀ t ∈ l, t ≤ now) : FailureInv en' now ⟨[], l⟩ :=
      ⟨hempty, by simp, hsorted, hl, fun _ => ⟨List.nil_prefix, (by decide : (0 : Int) < _)⟩,
        fun h => by simp [hblocked] at h⟩
    split
    · exact hfresh [] List.Pairwise.nil (by simp)
    · exact hfresh log.sinceBlock hi.sorted hi.sincePast

/-- The log behind a call, by what the call does to the entry. -/
theorem FailureInv.step (hi : FailureInv en now₀ log) (hnow : now₀ ≤ now) (he : FailureEffect now fails en en') :
    FailureInv en' now (log.after now fails en en') := by
  have hi := hi.mono hnow
  cases he with
  | kept hfails hcount hflag huntil =>
    apply hi.same (.inl hfails) ?_ hflag huntil
    rw [hcount, hfails]
    exact (Int.add_zero _).symm
  | failed hfails hcount hfew hflag huntil =>
    refine hi.same (.inr ⟨hfails, ?_⟩) (by rw [hcount, hfails]; rfl) hflag huntil
    rw [hcount, hi.count] at hfew
    exact hfew
  | blocks hfails hcount hflag huntil =>
    obtain ⟨hcounted, hlen⟩ := hi.counted_after hcount
    rw [FailureLog.after, hcounted, hflag, Bool.true_and, decide_eq_true huntil, Bool.or_true, if_pos rfl]
    exact failureInv_of_blocks hlen (hi.past_after hfails) hflag huntil
  | cleared hfails hcount hflag =>
    subst hfails
    exact hi.zeroed hcount hflag

/-- In a list from the newest to the oldest, the first elements are recent if as many are. -/
theorem recent_take {l : List Int} (hl : l.Pairwise (· ≥ ·)) {since : Int} {n : Nat}
    (hn : n ≤ (l.filter (since < ·)).length) : ∀ t ∈ l.take n, since < t := by
  induction l generalizing n with
  | nil => simp
  | cons a l ih =>
    obtain ⟨ha, hl⟩ := List.pairwise_cons.1 hl
    cases n with
    | zero => simp
    | succ n =>
      by_cases hold : since < a
      · rw [List.filter_cons_of_pos (by simpa using hold), List.length_cons] at hn
        rw [List.take_succ_cons]
        exact List.forall_mem_cons.2 ⟨hold, ih hl (Nat.le_of_succ_le_succ hn)⟩
      · -- Nothing behind an old element is recent.
        have hnone : (a :: l).filter (since < ·) = [] := by
          apply List.filter_eq_nil_iff.2
          intro t ht
          have : t ≤ a := by
            rcases List.mem_cons.1 ht with rfl | ht
            · exact Int.le_refl _
            · exact ha t ht
          simp only [decide_eq_true_eq]
          omega
        rw [hnone] at hn
        exact absurd hn (Nat.not_succ_le_zero n)

/-- At the failure that blocks, enough of the failures since the last block are recent if and only if
everything that the counter holds is. -/
theorem FailureInv.enough_iff (hi : FailureInv en now₀ log)
    (hcount : MAX_AUTH_FAILURES ≤ log.counted.length + 1) (since : Int) :
    MAX_AUTH_FAILURES ≤ (log.sinceBlock.filter (since < ·)).length + 1 ↔
      ∀ t ∈ log.counted, since < t ∧ (en.isBlocked = true → en.blockUntil ≤ t) := by
  rw [MAX_AUTH_FAILURES] at *
  cases hflag : en.isBlocked with
  | false =>
    obtain ⟨hpre, hfew⟩ := hi.unblocked hflag
    have htake := List.prefix_iff_eq_take.1 hpre
    constructor
    · intro henough t ht
      rw [htake] at ht
      have hlen : log.counted.length = 4 := by rw [MAX_AUTH_FAILURES] at hfew; omega
      rw [hlen] at ht
      exact ⟨recent_take hi.sorted (by omega) t ht, fun h => by cases h⟩
    · intro hall
      have hself : log.counted.filter (since < ·) = log.counted :=
        List.filter_eq_self.2 fun t ht => decide_eq_true (hall t ht).1
      have hle := (hpre.sublist.filter (since < ·)).length_le
      rw [hself] at hle
      omega
  | true =>
    obtain ⟨hsince, hfew⟩ := hi.blocked hflag
    constructor
    · intro henough t ht
      have hne : log.sinceBlock ≠ [] := by
        rintro h
        rw [h] at henough
        simp at henough
      have hlen : log.counted.length = 4 := by
        have := hfew hne
        rw [MAX_AUTH_FAILURES] at this
        omega
      rw [hsince, List.filter_filter] at henough
      have hle := List.length_filter_le (fun t => decide (since < t) && decide (en.blockUntil ≤ t)) log.counted
      have hall := List.length_filter_eq_length_iff.1 (Nat.le_antisymm hle (by omega)) t ht
      rw [Bool.and_eq_true, decide_eq_true_eq, decide_eq_true_eq] at hall
      exact ⟨hall.1, fun _ => hall.2⟩
    · intro hall
      have hself : log.counted.filter (en.blockUntil ≤ ·) = log.counted :=
        List.filter_eq_self.2 fun t ht => decide_eq_true ((hall t ht).2 rfl)
      have hrecent : log.counted.filter (since < ·) = log.counted :=
        List.filter_eq_self.2 fun t ht => decide_eq_true (hall t ht).1
      rw [hsince, hself, hrecent]
      exact hcount

theorem lt_blockEnd (now : Int) : now < now + BLOCK_DURATION := by
  unfold BLOCK_DURATION
  omega

theorem failEntry_effect (now : Int) (en : IpRateLimit) : FailureEffect now [now] en (failEntry now en) := by
  simp only [failEntry]
  split
  · exact .blocks (.inr rfl) rfl rfl (lt_blockEnd now)
  · rename_i hfew
    exact .failed rfl rfl (Int.not_le.1 hfew) rfl rfl

theorem releaseEntry_effect (now : Int) (en : IpRateLimit) : FailureEffect now [] en (releaseEntry en) := by
  unfold releaseEntry
  split <;> exact .kept rfl rfl rfl rfl

theorem checkEntry_effect (cfg : RateLimitConfig) (henabled : cfg.rateLimitEnabled = true) (now : Int)
    (en : IpRateLimit) : FailureEffect now [] en (checkEntry cfg now en).2 := by
  unfold checkEntry
  by_cases hfull : en.activeConnections ≥ cfg.maxConnPerIp
  · rw [if_pos hfull]
    exact .kept rfl rfl rfl rfl
  rw [if_neg hfull]
  by_cases hblocked : cfg.rateLimitEnabled = true ∧ en.isBlocked = true ∧ now < en.blockUntil
  · rw [if_pos hblocked]
    exact .kept rfl rfl rfl rfl
  rw [if_neg hblocked]
  by_cases hover : cfg.rateLimitEnabled = true ∧ en.isBlocked = true ∧ now ≥ en.blockUntil
  · -- The block has run out: the counter begins anew, whatever the rate is.
    simp only [if_pos hover, if_pos henabled]
    split_ifs
    all_goals first
      | exact .cleared rfl rfl fun _ => lt_blockEnd now
      | exact .cleared rfl rfl fun h => by simp at h
  · simp only [if_neg hover, if_pos henabled]
    split_ifs
    all_goals first
      | exact .kept rfl rfl rfl rfl
      | exact .blocks (.inl rfl) (by simp) rfl (lt_blockEnd now)

/-- The failures that an entry counts, and its block, do not depend on when it is looked up. -/
theorem FailureInv.at_time {t : RateLimits} {ip : IpText} {m n : Int} (hi : FailureInv (t.getRateLimitEntry ip m) now log) :
    FailureInv (t.getRateLimitEntry ip n) now log := by
  rcases hfind : t.find ip with _ | en
  · have hget (k : Int) : t.getRateLimitEntry ip k = ⟨ip, k, 0, 0, 0, false, 0⟩ := by
      simp [RateLimits.getRateLimitEntry, hfind]
    rw [hget] at hi ⊢
    exact ⟨hi.count, hi.past, hi.sorted, hi.sincePast, hi.unblocked, hi.blocked⟩
  · have hget (k : Int) : t.getRateLimitEntry ip k = en := by simp [RateLimits.getRateLimitEntry, hfind]
    rw [hget] at hi ⊢
    exact hi

end Failures

section FailureRun
variable {cfg : RateLimitConfig} {ip : Ip} {s s' : RateState} {p p' : RateState × FailureLog} {e : Int × RateCall}

/-- What a call for any address does to the failures that the entry of `ip` counts. -/
theorem rateStep_effect (henabled : cfg.rateLimitEnabled = true) (hu : s.table.Unique)
    (h : rateStep cfg s e = some s') : FailureEffect e.1 (failureOf ip e) (s.table.getRateLimitEntry ip.text e.1)
      (s'.table.getRateLimitEntry ip.text e.1) := by
  have hfind := find_step henabled hu h ip
  by_cases hip : ip = e.2.ip
  · rw [if_pos hip] at hfind
    have hget : s'.table.getRateLimitEntry ip.text e.1 =
        e.2.change cfg e.1 (s.table.getRateLimitEntry ip.text e.1) := by
      simp [RateLimits.getRateLimitEntry, hfind]
    rw [hget]
    obtain ⟨now, c⟩ := e
    cases c with
    | checkIp => exact checkEntry_effect cfg henabled now _
    | recordAuthFailure ip' =>
      have hfails : failureOf ip (now, .recordAuthFailure ip') = [now] := if_pos hip.symm
      rw [hfails]
      exact failEntry_effect now _
    | releaseIp => exact releaseEntry_effect now _
  · rw [if_neg hip] at hfind
    have hnone : failureOf ip e = [] := by
      obtain ⟨now, c⟩ := e
      cases c with
      | recordAuthFailure ip' => exact if_neg (Ne.symm hip)
      | checkIp => rfl
      | releaseIp => rfl
    rw [hnone]
    by_cases htaken : ip.text = s.table.holder e.2.ip.text
    · -- The entry is gone, and the next call for `ip` makes one that counts nothing.
      rw [if_pos htaken] at hfind
      apply FailureEffect.cleared rfl <;> simp [RateLimits.getRateLimitEntry, hfind]
    · rw [if_neg htaken] at hfind
      have hget : s'.table.getRateLimitEntry ip.text e.1 = s.table.getRateLimitEntry ip.text e.1 := by
        simp [RateLimits.getRateLimitEntry, hfind]
      rw [hget]
      exact .kept rfl rfl rfl rfl

/-- What holds of an address between the calls. -/
def RecordsFailures (ip : Ip) (p : RateState × FailureLog) : Prop :=
  p.1.table.Unique ∧ ∀ now, FailureInv (p.1.table.getRateLimitEntry ip.text now) p.1.now p.2

theorem recordsFailures_step (henabled : cfg.rateLimitEnabled = true) (hi : RecordsFailures ip p)
    (h : failureStep cfg ip p e = some p') : RecordsFailures ip p' := by
  obtain ⟨s', hs', rfl⟩ := Option.map_eq_some_iff.1 h
  obtain ⟨hle, heq⟩ := rateStep_some hs'
  have hnow : s'.now = e.1 := by rw [heq]
  refine ⟨unique_step henabled hi.1 hs', fun now => ?_⟩
  show FailureInv (s'.table.getRateLimitEntry ip.text now) s'.now (p.2.next ip p.1 s' e)
  rw [hnow]
  exact ((hi.2 e.1).step hle (rateStep_effect henabled hi.1 hs')).at_time

theorem recordsFailures_init (start : Int) : RecordsFailures ip (RateState.init start, ⟨[], []⟩) := by
  refine ⟨RateLimits.unique_init, fun now => ?_⟩
  have hfind : (RateState.init start).table.find ip.text = none := by
    apply RateLimits.find_eq_none.2
    intro en hen
    rw [List.eq_of_mem_replicate hen]
    exact ip.ne.symm
  have hget : (RateState.init start).table.getRateLimitEntry ip.text now = ⟨ip.text, now, 0, 0, 0, false, 0⟩ := by
    simp [RateLimits.getRateLimitEntry, hfind]
  rw [hget]
  exact ⟨rfl, by simp, List.Pairwise.nil, by simp, fun _ => ⟨List.prefix_refl _, (by decide : (0 : Int) < _)⟩,
    fun h => by cases h⟩

/-- The failure that is one too many for the counter blocks. -/
theorem blocks_failEntry {now : Int} {en : IpRateLimit}
    (hopen : (en.isBlocked && decide (now < en.blockUntil)) = false) :
    ((failEntry now en).isBlocked && decide (now < (failEntry now en).blockUntil)) =
      decide (MAX_AUTH_FAILURES ≤ en.authFailureCount + 1) := by
  simp only [failEntry]
  by_cases hmany : en.authFailureCount + 1 ≥ MAX_AUTH_FAILURES
  · rw [if_pos hmany, decide_eq_true hmany, Bool.true_and]
    exact decide_eq_true (lt_blockEnd now)
  · rw [if_neg hmany, decide_eq_false hmany]
    exact hopen

theorem blocksOnRecent_iff (henabled : cfg.rateLimitEnabled = true) (hi : RecordsFailures ip p) :
    BlocksOnRecent cfg ip p e ↔ CountsRecent cfg ip p e := by
  obtain ⟨s, log⟩ := p
  obtain ⟨now, c⟩ := e
  obtain ⟨hu, hinv⟩ := hi
  have hinv := hinv now
  unfold BlocksOnRecent CountsRecent
  refine imp_congr_right fun hc => imp_congr_right fun hopen => ?_
  obtain rfl : c = .recordAuthFailure ip := hc
  have hafter (s' : RateState) (hs' : rateStep cfg s (now, .recordAuthFailure ip) = some s') :
      s'.blocks ip now = decide (MAX_AUTH_FAILURES ≤ log.counted.length + 1) := by
    have hfind := find_step henabled hu hs' ip
    have hget : s'.table.getRateLimitEntry ip.text now = failEntry now (s.table.getRateLimitEntry ip.text now) := by
      rw [RateLimits.getRateLimitEntry, hfind]
      exact congrArg (Option.getD · _) (if_pos rfl)
    have hcount := hinv.count
    rw [RateState.blocks, hget]
    simp only [] at hcount ⊢
    rw [blocks_failEntry hopen, hcount]
  constructor
  · intro h _ hle hmany
    have hs' : rateStep cfg s (now, .recordAuthFailure ip) = some ⟨_, now⟩ := if_neg (Int.not_lt.2 hle)
    exact (hinv.enough_iff hmany _).1 (h _ hs' ((hafter _ hs').trans (decide_eq_true hmany)))
  · intro h s' hs' hblocked
    have hmany := of_decide_eq_true ((hafter s' hs').symm.trans hblocked)
    exact (hinv.enough_iff hmany _).2 (h henabled (rateStep_some hs').1 hmany)

/-- Where rate limiting is off, no failure blocks. -/
theorem blocksOnRecent_off (hoff : cfg.rateLimitEnabled = false) : BlocksOnRecent cfg ip p e := by
  intro hc hopen s' hs' hblocked
  obtain ⟨-, rfl⟩ := rateStep_some hs'
  have hsame : e.2.apply cfg e.1 p.1.table = p.1.table := by
    rw [hc]
    exact if_neg (by simp [hoff])
  have hopen' : RateState.blocks ⟨e.2.apply cfg e.1 p.1.table, e.1⟩ ip e.1 = false := by
    rw [hsame]
    exact hopen
  rw [hopen'] at hblocked
  cases hblocked

end FailureRun

/-- The failures that block `ip` in a run are each the last of `MAX_AUTH_FAILURES` recent ones, if and
only if its counter never holds others than recent ones where one more blocks. -/
theorem failures_recent_iff (cfg : RateLimitConfig) (start : Int) (ip : Ip) (ops : List (Int × RateCall)) :
    Meets (failureStep cfg ip) (BlocksOnRecent cfg ip) (RateState.init start, ⟨[], []⟩) ops ↔
      Meets (failureStep cfg ip) (CountsRecent cfg ip) (RateState.init start, ⟨[], []⟩) ops := by
  cases henabled : cfg.rateLimitEnabled with
  | true =>
    exact meets_congr_of_inv (RecordsFailures ip) (fun p e p' hi h => recordsFailures_step henabled hi h)
      (fun p e hi => blocksOnRecent_iff henabled hi) (recordsFailures_init start)
  | false =>
    refine meets_congr_of_inv (fun _ => True) (fun _ _ _ _ _ => trivial) (fun p e _ => ?_) trivial
    exact iff_of_true (blocksOnRecent_off henabled) fun _ _ h => by simp [henabled] at h

/-- A wrong password in every 100 seconds. -/
def slowFailures : List (Int × RateCall) :=
  (0, .checkIp (peer 0)) :: [0, 100, 200, 300].map fun t => (t, .recordAuthFailure (peer 0))

/-- The address has failed four times. -/
def slowState : RateState := ⟨RateLimits.init.set 0 ⟨(peer 0).text, 0, 1, 1, 4, false, 0⟩, 300⟩

theorem exec_slowFailures : exec (failureStep defaultConfig (peer 0)) (RateState.init 0, ⟨[], []⟩) slowFailures =
    some (slowState, ⟨[300, 200, 100, 0], [300, 200, 100, 0]⟩) := by
  decide +kernel

/-- The fifth wrong password blocks the address, as the only one of its minute. -/
theorem slow_failures_block :
    ¬ Meets (failureStep defaultConfig (peer 0)) (BlocksOnRecent defaultConfig (peer 0))
      (RateState.init 0, ⟨[], []⟩) (slowFailures ++ [(400, .recordAuthFailure (peer 0))]) := by
  intro h
  have hfifth := meets_iff.1 h slowFailures _ [] rfl _ exec_slowFailures
  have hstep : rateStep defaultConfig slowState (400, .recordAuthFailure (peer 0)) =
      some ⟨RateLimits.init.set 0 ⟨(peer 0).text, 0, 1, 1, 5, true, 700⟩, 400⟩ := by decide +kernel
  have hfew := hfifth rfl (by decide +kernel) _ hstep (by decide +kernel)
  exact absurd hfew (by decide)

end Tnt
