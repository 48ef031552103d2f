import Tnt.Framing
/-!
# Modules that do not answer (`module_runtime.c`)

A module that leaves events unanswered is to be given up. A delivery that ends
with a part of a line, or with a line that is no response, counts against the module.
One that ends with nothing read does not, so that a module that keeps silent is
waited for at every event. `silent_module_disabled` says that this is the only gap.
-/
open BaseLib

namespace Tnt

/-- A response that is not invalid. -/
def Happening.answers : Happening → Bool
  | .response _ _ _ action => action != .invalid
  | _ => false

/-- The number of events that were sent since the last answer. -/
def unanswered (history : List Happening) : Nat := (history.rtakeWhile (!·.answers)).count .sent

/-- The deliveries being over, a module that left `k` events in a row unanswered is given up. -/
def SilentDisabled (k : Nat) (r : Runtime) : Prop :=
  ∀ (i : Nat) (m : ModuleProcess), r.modules[i]? = some m → r.worker.on i = none → k ≤ unanswered m.history →
    m.active = false

/-- No delivery ends with nothing read for the event: neither is the time up before the first byte, nor is
this a newline. -/
def Heard (r : Runtime) : RuntimeEvent → Bool
  | .read .timeout _ =>
    match r.worker with
    | .reading _ 0 [] => false
    | _ => true
  | .read .byte _ =>
    match r.worker with
    | .reading i 0 [] => r.modules[i]?.all fun m => m.output[m.consumed]?.all (·.1 != newline)
    | _ => true
  | _ => true

/-! ## What counts against a module -/

theorem unanswered_concat (history : List Happening) (h : Happening) :
    unanswered (history ++ [h]) =
      if h.answers then 0 else unanswered history + if h = .sent then 1 else 0 := by
  unfold unanswered
  rw [List.rtakeWhile_concat]
  cases hh : h.answers with
  | true => rfl
  | false =>
    simp only [Bool.not_false, if_true, List.count_append, List.count_singleton, beq_iff_eq]
    rfl

/-- The event that is being answered is not counted against the module yet. -/
structure SilenceInv (m : ModuleProcess) (phase : Option (Nat × Bytes)) : Prop where
  settled : phase = none → m.active = true → unanswered m.history ≤ m.invalidResponses
  first : ∀ line, phase = some (0, line) → unanswered m.history ≤ m.invalidResponses + 1
  more : ∀ responses line, phase = some (responses + 1, line) → unanswered m.history = 0

variable {m m' : ModuleProcess} {phase phase' : Option (Nat × Bytes)} {e : RuntimeEvent}

theorem silenceInv_started (name output : Bytes) (consumed : Nat) :
    SilenceInv (.started name output consumed) none where
  settled _ _ := Nat.zero_le _
  first _ := nofun
  more _ _ := nofun

/-- The delivery goes on. -/
theorem SilenceInv.le (hi : SilenceInv m phase) {responses : Nat} {line : Bytes} (h : phase = some (responses, line)) :
    unanswered m.history ≤ m.invalidResponses + 1 := by
  cases responses with
  | zero => exact hi.first line h
  | succ responses =>
    rw [hi.more responses line h]
    exact Nat.zero_le _

theorem SilenceInv.closed (h : m.active = false) : SilenceInv m none where
  settled _ hopen := by rw [h] at hopen; cases hopen
  first _ := nofun
  more _ _ := nofun

theorem SilenceInv.ended (h : unanswered m.history ≤ m.invalidResponses) : SilenceInv m none where
  settled _ _ := h
  first _ := nofun
  more _ _ := nofun

/-- `Heard`, for the module that the step is about. -/
def HeardBy (e : RuntimeEvent) (m : ModuleProcess) (phase : Option (Nat × Bytes)) : Prop :=
  ∀ line poll now m', phase = some (0, line) → e = .read poll now → pollRound m line poll ≠ some (.line [], m')

/-- An answer sets the counts back, and an invalid response raises both of them at most. -/
theorem silenceInv_exchange (hi : SilenceInv m phase) (hheard : HeardBy e m phase) (h : Exchange e m phase m' phase') :
    SilenceInv m' phase' := by
  cases h with
  | same => exact hi
  | output i bytes => exact ⟨hi.settled, hi.first, hi.more⟩
  | sent hopen =>
    have hone := unanswered_concat m.history .sent
    have hle := hi.settled rfl hopen
    refine ⟨nofun, fun _ _ => ?_, nofun⟩
    show unanswered (m.history ++ [.sent]) ≤ m.invalidResponses + 1
    rw [hone]
    exact Nat.succ_le_succ hle
  | sendFailed => exact .closed rfl
  | byte => exact ⟨nofun, fun _ hphase => hi.le rfl, fun responses line hphase => by
      cases hphase
      exact hi.more _ _ rfl⟩
  | readFailed => exact .closed rfl
  | @nothing poll now _ _ responses line hpoll =>
    cases responses with
    | zero => exact absurd hpoll (hheard line poll now m' rfl rfl)
    | succ responses =>
      rw [pollRound_same hpoll]
      exact .ended ((hi.more _ _ rfl).trans_le (Nat.zero_le _))
  | excess => exact .closed rfl
  | @more poll now _ m₁ responses line text id hpoll =>
    refine ⟨nofun, fun _ => nofun, fun _ _ _ => ?_⟩
    show unanswered (m₁.history ++ [.response text _ _ .more] ++ [.published id]) = 0
    rw [unanswered_concat, unanswered_concat]
    rfl
  | @done poll now _ m₁ responses line text hpoll =>
    apply SilenceInv.ended
    show unanswered (m₁.history ++ [.response text _ _ .done]) ≤ 0
    rw [unanswered_concat]
    rfl
  | @invalid poll now _ m₁ responses line text hpoll =>
    apply SilenceInv.ended
    show unanswered (m₁.history ++ [.response text _ _ .invalid]) ≤ m.invalidResponses + 1
    rw [unanswered_concat, pollRound_same hpoll]
    exact hi.le rfl

/-! ## Every run -/

section
variable {cfg : ServerConfig} {r r' : Runtime} {i : Nat}

theorem heard_by (hheard : Heard r e = true) (hm : r.modules[i]? = some m) : HeardBy e m (r.worker.on i) := by
  rintro line poll now m' hphase rfl hpoll
  have hworker := Worker.on_some hphase
  rcases pollRound_cases hpoll with ⟨rfl, hround, -⟩ | ⟨-, hround, -⟩ | ⟨c, rfl, hc, hround, -⟩
  · cases hround
    simp [Heard, hworker] at hheard
  · cases hround
  · rcases readByte_cases TNT_MODULE_LINE_MAX line c.1 with ⟨hline, hread⟩ | ⟨-, hread | ⟨-, hread⟩ | ⟨-, hread⟩⟩
    · rw [hread] at hround
      cases hround
      simp [Heard, hworker, hm, hc, hline] at hheard
    · rw [hread] at hround
      cases hround
    · rw [hread] at hround
      cases hround
    · rw [hread] at hround
      exact absurd (ReadRound.line.inj hround).symm (List.append_ne_nil_of_right_ne_nil _ (List.cons_ne_nil _ _))

theorem silence_step (hi : ∀ i m, r.modules[i]? = some m → SilenceInv m (r.worker.on i)) (hheard : Heard r e = true)
    (h : runtimeStep cfg r e = some r') : ∀ i m, r'.modules[i]? = some m → SilenceInv m (r'.worker.on i) := by
  intro i m' hm'
  have hlt : i < r.modules.length := runtimeStep_length h ▸ (List.getElem?_eq_some_iff.1 hm').1
  obtain ⟨m, hm⟩ : ∃ m, r.modules[i]? = some m := ⟨_, List.getElem?_eq_getElem hlt⟩
  obtain ⟨m₁, hm₁, hex⟩ := runtimeStep_module h hm
  obtain rfl : m₁ = m' := Option.some.inj (hm₁.symm.trans hm')
  exact silenceInv_exchange (hi i m hm) (heard_by hheard hm) hex

end

/-- In a run in which each delivery hears something, a module that leaves three events in a row unanswered is
given up behind the third. -/
theorem silent_module_disabled (cfg : ServerConfig) (greetings : List Greeting) (dir : LogDir) (now : Int)
    (es : List RuntimeEvent) (r : Runtime)
    (hheard : Meets (runtimeStep cfg) (fun r e => Heard r e = true) (.create cfg greetings dir now) es)
    (h : exec (runtimeStep cfg) (.create cfg greetings dir now) es = some r) :
    SilentDisabled TNT_MODULE_MAX_INVALID_RESPONSES r := by
  have hrun := exec_inv_of_meets
    (fun r => RuntimeInv cfg r ∧ ∀ i m, r.modules[i]? = some m → SilenceInv m (r.worker.on i))
    (fun s e s' hs hP hstep => ⟨runtimeInv_step hs.1 hstep, silence_step hs.2 hP hstep⟩)
    ⟨runtimeInv_create cfg greetings dir now, fun i m hm => ?_⟩ hheard h
  · intro i m hm hover hsilent
    have hmodule := hrun.1.modules i m hm
    have hsilence := hrun.2 i m hm
    by_contra hclosed
    have hopen : m.active = true := by simpa using hclosed
    have hle := hsilence.settled hover hopen
    apply (hmodule.active.1 hopen).valid
    apply inARow_of_le_streak
    rw [← hmodule.counted hopen]
    exact hsilent.trans hle
  · obtain ⟨⟨name, g⟩, -, rfl⟩ := List.mem_map.1 (List.mem_of_getElem? hm)
    exact silenceInv_started name g.output g.consumed

/-! ## A module that keeps silent -/

/-- A post is sent to the module. -/
def postedRun (id : Nat) : List RuntimeEvent :=
  [.server (.execPost (CBuf.copy _ (lit "ann")) (lit "hi") 1752500000), .server (.save id (.written true)),
    .server (.broadcast id), .server (.notify id true), .server (.enqueue id true), .dequeue, .send true]

/-- `echo` answers with a byte each time, and no line. -/
def stubbornRun : List RuntimeEvent :=
  [0, 1, 2].flatMap fun id =>
    postedRun id ++ [.output 0 (lit "?"), .read .byte 1752500000, .read .timeout 1752500000, .send true]

theorem silent_module_disabled_echo : ∃ r m,
    exec (runtimeStep echoConfig) (.create echoConfig [⟨[], 0, by decide⟩] ⟨none, none⟩ 1752500000) stubbornRun =
        some r ∧
      r.modules[0]? = some m ∧ m.active = false := by
  have hrun : (exec (runtimeStep echoConfig) (.create echoConfig [⟨[], 0, by decide⟩] ⟨none, none⟩ 1752500000)
      stubbornRun).any (fun r =>
        r.worker.on 0 == none && r.modules[0]?.any fun m => decide (3 ≤ unanswered m.history)) = true := by
    decide +kernel
  obtain ⟨r, hr, hp⟩ := (Option.any_eq_true _ _).1 hrun
  rw [Bool.and_eq_true, beq_iff_eq] at hp
  obtain ⟨m, hm, hsilent⟩ := (Option.any_eq_true _ _).1 hp.2
  exact ⟨r, m, hr, hm, silent_module_disabled echoConfig [⟨[], 0, by decide⟩] ⟨none, none⟩ 1752500000 stubbornRun r
    (by decide +kernel) hr 0 m hm hp.1 (of_decide_eq_true hsilent)⟩

/-- What `ann` posts. -/
def hiMessage : Message := ⟨1752500000, CBuf.copy _ (lit "ann"), CBuf.copy _ (lit "hi")⟩

theorem hiMessage_posted :
    (Origin.chat (.post (CBuf.copy _ (lit "ann")) (lit "hi"))).message true 1752500000 = some hiMessage := by
  decide +kernel

/-- Behind `k` events to which `echo` says nothing. -/
structure Quiet (k : Nat) (r : Runtime) : Prop where
  modules : r.modules = [⟨lit "echo", true, 0, [], 0, k, List.replicate k .sent⟩]
  worker : r.worker = .idle
  queue : r.server.board.queue = []
  done : r.server.board.pubs.AllDone
  count : r.server.board.pubs.jobs.length = k

section
variable {cfg : ServerConfig} {r : Runtime} {s : Server} {others : List (Job Publication PubStep)}
  {j : Job Publication PubStep} {k : PubStep}

theorem runtimeStep_own {e : ServerEvent} (he : e.isOwn = true) (h : serverStep cfg r.server e = some s) :
    runtimeStep cfg r (.server e) = some { r with server := s } := by
  simp only [runtimeStep, he, if_true, h, Option.map_some]

theorem not_busy {b : Board} (h : b.pubs.AllDone) (actor : Actor) : b.busy actor = false := by
  rw [Board.busy, List.any_eq_false]
  intro j hj
  simp [h j hj]

/-- The newest publication is about the post, and has these steps left. -/
def Posting (others : List (Job Publication PubStep)) (todo : List PubStep) (s : Server) : Prop :=
  ∃ p : Publication, p.msg = hiMessage ∧ s.board.pubs.jobs = others ++ [⟨p, todo⟩]

theorem Posting.next {todo : List PubStep} (h : Posting others (k :: todo) s) :
    ∃ p : Publication, p.msg = hiMessage ∧ s.board.pubs.next others.length k = some ⟨p, k :: todo⟩ ∧
      (s.board.pubs.take others.length ⟨p, k :: todo⟩ k).jobs = others ++ [⟨p, todo⟩] := by
  obtain ⟨p, hp, hjobs⟩ := h
  refine ⟨p, hp, ?_, ?_⟩
  · simp [Jobs.next, hjobs]
  · simp [Jobs.take, hjobs]

theorem posting_start (hdone : s.board.pubs.AllDone) : ∃ s',
    serverStep echoConfig s (.execPost (CBuf.copy _ (lit "ann")) (lit "hi") 1752500000) = some s' ∧
      s'.board.queue = s.board.queue ∧
      Posting s.board.pubs.jobs [.save, .broadcast, .notify, .enqueue] s' := by
  have hbusy := not_busy hdone (.session s.sessions.length)
  have hmsg : (Origin.chat (.post (CBuf.copy _ (lit "ann")) (lit "hi"))).message echoConfig.charSigned 1752500000 =
      some hiMessage := hiMessage_posted
  simp only [serverStep, Server.onBoard, boardStep, hbusy, hmsg, Option.map_some, Bool.false_eq_true, if_false]
  exact ⟨_, rfl, rfl, _, rfl, rfl⟩

theorem posting_save {todo : List PubStep} (h : Posting others (.save :: todo) s) :
    ∃ s', serverStep echoConfig s (.save others.length (.written true)) = some s' ∧
      s'.board.queue = s.board.queue ∧ Posting others todo s' := by
  obtain ⟨p, hp, hnext, hjobs⟩ := h.next
  have hyear : FourDigitYear p.msg.timestamp := hp ▸ by decide +kernel
  have hsave : messageSave p.msg (.written true) s.board.dir = (0, _) := (messageSave_zero hyear).2 ⟨true, rfl, rfl⟩
  simp only [serverStep, Server.onBoard, boardStep, hnext, Option.map_some, hsave, if_true]
  exact ⟨_, rfl, rfl, p, hp, hjobs⟩

theorem posting_broadcast {todo : List PubStep} (h : Posting others (.broadcast :: todo) s) :
    ∃ s', serverStep echoConfig s (.broadcast others.length) = some s' ∧
      s'.board.queue = s.board.queue ∧ Posting others todo s' := by
  obtain ⟨p, hp, hnext, hjobs⟩ := h.next
  simp only [serverStep, Server.onBoard, boardStep, hnext, Option.map_some]
  exact ⟨_, rfl, rfl, p, hp, hjobs⟩

theorem posting_notify {todo : List PubStep} (h : Posting others (.notify :: todo) s) :
    ∃ s', serverStep echoConfig s (.notify others.length true) = some s' ∧
      s'.board.queue = s.board.queue ∧ Posting others todo s' := by
  obtain ⟨p, hp, hnext, hjobs⟩ := h.next
  simp only [serverStep, Server.onBoard, boardStep, hnext, Option.map_some, Option.bind_some]
  exact ⟨_, rfl, rfl, p, hp, hjobs⟩

theorem posting_enqueue {todo : List PubStep} (h : Posting others (.enqueue :: todo) s) (hqueue : s.board.queue = []) :
    ∃ s', serverStep echoConfig s (.enqueue others.length true) = some s' ∧
      s'.board.queue = [hiMessage] ∧ Posting others todo s' := by
  obtain ⟨p, hp, hnext, hjobs⟩ := h.next
  simp only [serverStep, Server.onBoard, boardStep, hnext, Option.map_some, hqueue]
  exact ⟨_, rfl, by rw [← hp]; rfl, p, hp, hjobs⟩

theorem hiMessage_event (eventId : UInt64) : (moduleEvent eventId hiMessage).isSome = true := by
  have hdigits : (decimal eventId.toNat).length ≤ 20 :=
    length_decimal_le (k := 19) (lt_of_lt_of_le eventId.toNat_lt (by decide))
  have hlength : escapedLength hiMessage.username.bytes + escapedLength hiMessage.content.bytes = 5 := by decide +kernel
  exact (moduleEvent_isSome (by decide +kernel)).2 ⟨by decide +kernel, by omega⟩

/-- An event to which nothing is said, from the post to the next one. -/
theorem quiet_step {n : Nat} (h : Quiet n r) : ∃ r',
    exec (runtimeStep echoConfig) r (postedRun n ++ [.read .timeout 1752500000, .send true]) = some r' ∧
      Quiet (n + 1) r' := by
  obtain ⟨s₁, hstart, hqueue₁, hs₁⟩ := posting_start h.done
  obtain ⟨s₂, hsave, hqueue₂, hs₂⟩ := posting_save hs₁
  obtain ⟨s₃, hbroadcast, hqueue₃, hs₃⟩ := posting_broadcast hs₂
  obtain ⟨s₄, hnotify, hqueue₄, hs₄⟩ := posting_notify hs₃
  obtain ⟨s₅, henqueue, hqueue₅, p, -, hjobs⟩ :=
    posting_enqueue hs₄ (by rw [hqueue₄, hqueue₃, hqueue₂, hqueue₁, h.queue])
  have hdone : s₅.board.pubs.AllDone := by
    intro j hj
    rw [hjobs] at hj
    rcases List.mem_append.1 hj with hj | hj
    · exact h.done j hj
    · rw [List.mem_singleton.1 hj]
  have hlength := h.count
  -- The event is delivered, and the time is up.
  obtain ⟨s₆, hdequeue, hdelivering, hqueue₆, hpubs⟩ : ∃ s₆, serverStep echoConfig s₅ .dequeue = some s₆ ∧
      s₆.delivering = some hiMessage ∧ s₆.board.queue = [] ∧ s₆.board.pubs = s₅.board.pubs := by
    simp only [serverStep, not_busy hdone, Server.onBoard, boardStep, hqueue₅]
    exact ⟨_, rfl, rfl, rfl, rfl⟩
  have hidle : s₆.board.busy .moduleWorker = false := not_busy (hpubs ▸ hdone) _
  have htake : runtimeStep echoConfig { r with server := s₅ } .dequeue =
      some ⟨s₆, r.modules, r.eventId + 1, .next 0⟩ := by
    simp only [runtimeStep, h.worker, if_true, hdequeue, Option.map_some]
  have hsend : runtimeStep echoConfig ⟨s₆, r.modules, r.eventId + 1, .next 0⟩ (.send true) =
      some ⟨s₆, [⟨lit "echo", true, 0, [], 0, n + 1, List.replicate (n + 1) .sent⟩], r.eventId + 1,
        .reading 0 0 []⟩ := by
    have hevent : ((moduleEvent (r.eventId + 1) hiMessage).isSome && true) = true := by
      rw [hiMessage_event]
      rfl
    simp only [runtimeStep, h.modules, List.getElem?_cons_zero, hdelivering, sendEvent]
    rw [if_neg (by decide), if_pos hevent, List.replicate_succ']
    rfl
  have htimeout : runtimeStep echoConfig
      ⟨s₆, [⟨lit "echo", true, 0, [], 0, n + 1, List.replicate (n + 1) .sent⟩], r.eventId + 1, .reading 0 0 []⟩
      (.read .timeout 1752500000) =
      some ⟨s₆, [⟨lit "echo", true, 0, [], 0, n + 1, List.replicate (n + 1) .sent⟩], r.eventId + 1, .next 1⟩ := by
    simp only [runtimeStep, hidle]
    rfl
  refine ⟨⟨s₆, [⟨lit "echo", true, 0, [], 0, n + 1, List.replicate (n + 1) .sent⟩], r.eventId + 1, .idle⟩, ?_,
    rfl, rfl, hqueue₆, hpubs ▸ hdone, ?_⟩
  · rw [hlength] at hsave hbroadcast hnotify henqueue
    have hown {s s' : Server} {e : ServerEvent} (he : e.isOwn = true) (hs : serverStep echoConfig s e = some s') :
        runtimeStep echoConfig { r with server := s } (.server e) = some { r with server := s' } :=
      runtimeStep_own he hs
    simp only [postedRun, List.cons_append, List.nil_append, exec_cons, exec_nil, runtimeStep_own rfl hstart,
      Option.bind_some, hown rfl hsave, hown rfl hbroadcast, hown rfl hnotify, hown rfl henqueue, htake, hsend,
      htimeout]
    rfl
  · rw [hpubs, hjobs, List.length_append, hlength]
    rfl

end

/-- However many events `echo` says nothing to, it stays. -/
theorem silent_module_stays : ¬ ∃ k, ∀ r,
    Reachable (runtimeStep echoConfig) (.create echoConfig [⟨[], 0, by decide⟩] ⟨none, none⟩ 1752500000) r →
      SilentDisabled k r := by
  rintro ⟨k, hdisabled⟩
  have hquiet : ∀ n, ∃ r,
      Reachable (runtimeStep echoConfig) (.create echoConfig [⟨[], 0, by decide⟩] ⟨none, none⟩ 1752500000) r ∧
        Quiet n r := by
    intro n
    induction n with
    | zero => exact ⟨_, .refl _, rfl, rfl, rfl, fun _ => nofun, rfl⟩
    | succ n ih =>
      obtain ⟨r, ⟨es, hes⟩, hr⟩ := ih
      obtain ⟨r', hrun, hr'⟩ := quiet_step hr
      exact ⟨r', ⟨_, by rw [exec_append, hes, Option.bind_some, hrun]⟩, hr'⟩
  obtain ⟨r, hreach, hr⟩ := hquiet k
  have hunanswered : unanswered (List.replicate k .sent) = k := by
    rw [unanswered, List.rtakeWhile_eq_self_iff.2 fun x hx => by rw [List.eq_of_mem_replicate hx]; rfl,
      List.count_replicate_self]
  have hclosed := hdisabled r hreach 0 _ (by rw [hr.modules]; rfl) (by rw [hr.worker]; rfl) hunanswered.ge
  cases hclosed

end Tnt
