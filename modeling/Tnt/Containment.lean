import Tnt.ModuleRuntime
/-!
# Modules are contained

Whatever a module writes and whenever it does, it can publish so many messages for
an event and no more, it is given up after the first failure or the third invalid
response in a row, and then it is left alone. What it publishes is plain text under
its own name, and never becomes an event. `modules_contained` says so of every
reachable state of the runtime.
-/
open BaseLib

namespace Tnt

/-! ## The history of a module -/

def Happening.isPublished : Happening → Bool
  | .published _ => true
  | _ => false

/-- Of each response, whether it was invalid. -/
def invalidFlags (history : List Happening) : List Bool :=
  history.filterMap fun
    | .response _ _ _ action => some (action == .invalid)
    | _ => none

/-- Nothing in the history makes the runtime give the module up: no failure, no response too many, and
not so many invalid responses in a row. -/
structure Undisturbed (history : List Happening) : Prop where
  sent : .sendFailed ∉ history
  read : .readFailed ∉ history
  few : .excess ∉ history
  valid : ¬ InARow TNT_MODULE_MAX_INVALID_RESPONSES id (invalidFlags history)

theorem undisturbed_nil : Undisturbed [] where
  sent := List.not_mem_nil
  read := List.not_mem_nil
  few := List.not_mem_nil
  valid := not_inARow_nil (by decide)

/-- What is no failure and no response leaves a module undisturbed. -/
theorem undisturbed_concat {history : List Happening} {h : Happening} (hflags : invalidFlags [h] = []) :
    Undisturbed (history ++ [h]) ↔ Undisturbed history ∧ h ≠ .sendFailed ∧ h ≠ .readFailed ∧ h ≠ .excess := by
  have hsame : invalidFlags (history ++ [h]) = invalidFlags history := by
    unfold invalidFlags at hflags ⊢
    rw [List.filterMap_append, hflags, List.append_nil]
  constructor
  · rintro ⟨h1, h2, h3, h4⟩
    simp only [List.mem_append, List.mem_singleton, not_or] at h1 h2 h3
    exact ⟨⟨h1.1, h2.1, h3.1, hsame ▸ h4⟩, Ne.symm h1.2, Ne.symm h2.2, Ne.symm h3.2⟩
  · rintro ⟨⟨h1, h2, h3, h4⟩, h5, h6, h7⟩
    refine ⟨?_, ?_, ?_, hsame ▸ h4⟩
    all_goals simp only [List.mem_append, List.mem_singleton, not_or]
    · exact ⟨h1, Ne.symm h5⟩
    · exact ⟨h2, Ne.symm h6⟩
    · exact ⟨h3, Ne.symm h7⟩

theorem invalidFlags_response (history : List Happening) (line : Bytes) (start stop : Nat) (action : ResponseAction) :
    invalidFlags (history ++ [.response line start stop action]) = invalidFlags history ++ [action == .invalid] := by
  unfold invalidFlags
  rw [List.filterMap_append]
  rfl

theorem undisturbed_response {history : List Happening} {line : Bytes} {start stop : Nat} {action : ResponseAction} :
    Undisturbed (history ++ [.response line start stop action]) ↔
      Undisturbed history ∧ streak id (invalidFlags history ++ [action == .invalid]) <
        TNT_MODULE_MAX_INVALID_RESPONSES := by
  have hrow := @inARow_concat _ id TNT_MODULE_MAX_INVALID_RESPONSES (invalidFlags history) (action == .invalid)
  constructor
  · rintro ⟨h1, h2, h3, h4⟩
    simp only [List.mem_append, List.mem_singleton, reduceCtorEq, or_false] at h1 h2 h3
    rw [invalidFlags_response, hrow, not_or, Nat.not_le] at h4
    exact ⟨⟨h1, h2, h3, h4.1⟩, h4.2⟩
  · rintro ⟨⟨h1, h2, h3, h4⟩, h5⟩
    refine ⟨by simpa using h1, by simpa using h2, by simpa using h3, ?_⟩
    rw [invalidFlags_response, hrow, not_or, Nat.not_le]
    exact ⟨h4, h5⟩

/-! ## One module -/

/-- The messages that were published since the last event was sent. -/
def publishedSinceSent (history : List Happening) : Nat :=
  (history.rtakeWhile (· != .sent)).countP Happening.isPublished

/-- The module published no more than its limit between two events. -/
def FewPublished (history : List Happening) : Prop :=
  ∀ part, part <:+: history → .sent ∉ part → part.countP Happening.isPublished ≤ TNT_MODULE_MAX_RESPONSES_PER_EVENT

theorem fewPublished_concat {history : List Happening} {h : Happening} (hi : FewPublished history)
    (hlast : publishedSinceSent (history ++ [h]) ≤ TNT_MODULE_MAX_RESPONSES_PER_EVENT) :
    FewPublished (history ++ [h]) := by
  have hne {part : List Happening} : (∀ x ∈ part, (x != .sent) = true) ↔ .sent ∉ part := by
    simp only [bne_iff_ne, ne_eq]
    exact ⟨fun h hm => h _ hm rfl, fun h x hx heq => h (heq ▸ hx)⟩
  intro part hpart hsent
  exact countP_infix_concat (fun s hs hp => hi s hs (hne.1 hp)) hlast part hpart (hne.2 hsent)

theorem publishedSinceSent_sent (history : List Happening) : publishedSinceSent (history ++ [.sent]) = 0 := by
  rw [publishedSinceSent, List.rtakeWhile_concat_neg _ _ _ (by decide), List.countP_nil]

theorem publishedSinceSent_concat (history : List Happening) {h : Happening} (hne : h ≠ .sent) :
    publishedSinceSent (history ++ [h]) = publishedSinceSent history + if h.isPublished = true then 1 else 0 := by
  rw [publishedSinceSent, List.rtakeWhile_concat_pos _ _ _ (by simpa using hne), List.countP_append,
    List.countP_singleton]
  rfl

structure ModuleInv (m : ModuleProcess) (phase : Option (Nat × Bytes)) : Prop where
  active : m.active = true ↔ Undisturbed m.history
  /-- The counter is the number of invalid responses in a row. -/
  counted : m.active = true → m.invalidResponses = streak id (invalidFlags m.history)
  few : FewPublished m.history
  /-- Only an active module is read from, and each of its messages counts as a response. -/
  reading : ∀ responses line, phase = some (responses, line) → m.active = true ∧
    publishedSinceSent m.history ≤ responses ∧ responses ≤ TNT_MODULE_MAX_RESPONSES_PER_EVENT

theorem moduleInv_started (name output : Bytes) (consumed : Nat) : ModuleInv (.started name output consumed) none where
  active := ⟨fun _ => undisturbed_nil, fun _ => rfl⟩
  counted _ := streak_nil.symm
  few part hpart _ := by
    obtain rfl := List.infix_nil.1 hpart
    exact Nat.zero_le _
  reading _ _ := nofun

/-- What is recorded besides messages counts for nothing. -/
theorem FewPublished.record {history : List Happening} (hi : FewPublished history) {h : Happening}
    (hh : h.isPublished = false) :
    FewPublished (history ++ [h]) := by
  apply fewPublished_concat hi
  by_cases hsent : h = .sent
  · rw [hsent, publishedSinceSent_sent]
    exact Nat.zero_le _
  · rw [publishedSinceSent_concat _ hsent, hh]
    apply hi _ (List.rtakeWhile_suffix _ _).isInfix
    intro hm
    exact absurd (List.mem_rtakeWhile_imp hm) (by decide)

section
variable {e : RuntimeEvent} {m m₁ m' : ModuleProcess} {phase phase' : Option (Nat × Bytes)}

theorem ModuleInv.poll {line : Bytes} {poll : Readiness} {round : ReadRound} (hi : ModuleInv m phase)
    (h : pollRound m line poll = some (round, m₁)) : ModuleInv m₁ phase := by
  rw [pollRound_same h]
  exact ⟨hi.active, hi.counted, hi.few, hi.reading⟩

theorem ModuleInv.over (hi : ModuleInv m phase) : ModuleInv m none :=
  ⟨hi.active, hi.counted, hi.few, fun _ _ => nofun⟩

/-- A module that is closed is not undisturbed any more. -/
theorem ModuleInv.closed (hi : ModuleInv m phase) {h : Happening}
    (hh : h = .sendFailed ∨ h = .readFailed ∨ h = .excess) :
    ModuleInv (m.record h).close none where
  active := by
    have hflags : invalidFlags [h] = [] := by rcases hh with rfl | rfl | rfl <;> rfl
    have hnot : ¬ Undisturbed (m.history ++ [h]) := by
      rw [undisturbed_concat hflags]
      rintro ⟨-, h1, h2, h3⟩
      rcases hh with hh | hh | hh
      · exact h1 hh
      · exact h2 hh
      · exact h3 hh
    exact ⟨fun hopen => Bool.noConfusion hopen, fun h => absurd h hnot⟩
  counted hopen := Bool.noConfusion hopen
  few := hi.few.record (by rcases hh with rfl | rfl | rfl <;> rfl)
  reading _ _ := nofun

/-- A response is counted, and one too many invalid ones in a row close the module. -/
theorem ModuleInv.response {responses : Nat} {line text : Bytes} {start stop : Nat} {action : ResponseAction}
    (hi : ModuleInv m (some (responses, line))) (hhist : m'.history = m.history ++ [.response text start stop action])
    (hinvalid : m'.invalidResponses = if action = .invalid then m.invalidResponses + 1 else 0)
    (hactive : m'.active = (m.active && decide (m'.invalidResponses < TNT_MODULE_MAX_INVALID_RESPONSES))) :
    ModuleInv m' none := by
  have hopen := (hi.reading _ _ rfl).1
  have hstreak : streak id (invalidFlags m'.history) = m'.invalidResponses := by
    rw [hhist, invalidFlags_response, streak_concat, hinvalid, hi.counted hopen]
    cases action <;> rfl
  refine ⟨?_, fun _ => hstreak.symm, ?_, fun _ _ => nofun⟩
  · rw [hhist, invalidFlags_response] at hstreak
    rw [hactive, hopen, Bool.true_and, decide_eq_true_iff, hhist, undisturbed_response, hstreak]
    exact ⟨fun h => ⟨hi.active.1 hopen, h⟩, fun h => h.2⟩
  · rw [hhist]
    exact hi.few.record rfl

/-- A message that is published has been counted as a response. -/
theorem ModuleInv.published (hi : ModuleInv m none) (hopen : m.active = true) (id : Nat) {responses : Nat}
    (hcount : publishedSinceSent m.history < responses) (hmax : responses ≤ TNT_MODULE_MAX_RESPONSES_PER_EVENT) :
    ModuleInv (m.record (.published id)) (some (responses, [])) := by
  have hsince : publishedSinceSent (m.history ++ [.published id]) = publishedSinceSent m.history + 1 :=
    publishedSinceSent_concat m.history (by simp)
  have hflags : invalidFlags (m.history ++ [.published id]) = invalidFlags m.history := by
    unfold invalidFlags
    rw [List.filterMap_append]
    exact List.append_nil _
  refine ⟨?_, fun _ => ?_, fewPublished_concat hi.few (by omega), ?_⟩
  · simp only [ModuleProcess.record]
    rw [undisturbed_concat rfl, hi.active]
    simp
  · simp only [ModuleProcess.record]
    rw [hflags]
    exact hi.counted hopen
  · rintro _ _ ⟨⟩
    exact ⟨hopen, hsince.le.trans hcount, hmax⟩

theorem moduleInv_exchange (hi : ModuleInv m phase) (h : Exchange e m phase m' phase') : ModuleInv m' phase' := by
  cases h with
  | same => exact hi
  | output i bytes => exact ⟨hi.active, hi.counted, hi.few, hi.reading⟩
  | sent hactive =>
    have hzero := publishedSinceSent_sent m.history
    refine ⟨?_, ?_, hi.few.record rfl, ?_⟩
    · simp only [ModuleProcess.record]
      rw [undisturbed_concat rfl, hi.active]
      simp
    · intro _
      have hflags : invalidFlags (m.history ++ [.sent]) = invalidFlags m.history := by
        unfold invalidFlags
        rw [List.filterMap_append]
        exact List.append_nil _
      exact (hi.counted hactive).trans (by rw [← hflags]; rfl)
    · rintro responses line ⟨⟩
      exact ⟨hactive, hzero.le, Nat.zero_le _⟩
  | sendFailed => exact hi.closed (.inl rfl)
  | byte =>
    refine ⟨hi.active, hi.counted, hi.few, ?_⟩
    rintro responses line ⟨⟩
    exact hi.reading _ _ rfl
  | readFailed hpoll => exact (hi.poll hpoll).closed (.inr (.inl rfl))
  | nothing hpoll => exact (hi.poll hpoll).over
  | excess hpoll => exact (hi.poll hpoll).closed (.inr (.inr rfl))
  | more id hpoll htext hmax haction =>
    have hi₁ := hi.poll hpoll
    obtain ⟨hopen, hcount, -⟩ := hi₁.reading _ _ rfl
    refine ModuleInv.published ?_ ?_ id ?_ hmax
    · exact hi₁.response rfl rfl (Bool.and_true _).symm
    · exact hopen
    · simp only [ModuleProcess.record]
      rw [publishedSinceSent_concat _ (by simp)]
      exact Nat.lt_succ_of_le hcount
  | done hpoll htext hmax haction => exact (hi.poll hpoll).response rfl rfl (Bool.and_true _).symm
  | invalid hpoll htext hmax haction =>
    refine (hi.poll hpoll).response rfl ?_ rfl
    rw [pollRound_same hpoll]
    rfl

end

/-! ## Publications and events -/

/-- The messages that were offered to the queue. -/
def Board.offered (b : Board) : List Message := (Jobs.took .enqueue b.pubs.history).map (·.2.msg)

section
variable {cfg : ServerConfig} {s s' : Server} {b b' : Board} {charSigned running : Bool}

/-- Not started anew, the board forgets nothing, and what gets into the queue was offered. -/
theorem boardStep_offered {be : BoardEvent} (h : boardStep charSigned running b be = some b')
    (hbe : ∀ now, be ≠ .restart now) :
    b.offered <+: b'.offered ∧ ∀ msg ∈ b'.queue, msg ∈ b.queue ∨ msg ∈ b'.offered := by
  have hsame {history : List (Entry Publication PubStep)} {x : Entry Publication PubStep}
    (hx : x.outcome ≠ .done .enqueue) :
      (Jobs.took .enqueue history).map (·.2.msg) <+: (Jobs.took .enqueue (history ++ [x])).map (·.2.msg) := by
    rw [Jobs.took_concat_ne history hx]
  cases be with
  | start actor origin now =>
    simp only [boardStep, Option.ite_none_left_eq_some, Option.map_eq_some_iff] at h
    obtain ⟨-, msg, -, rfl⟩ := h
    exact ⟨hsame (by simp), fun msg hm => .inl hm⟩
  | save id env =>
    simp only [boardStep, Option.map_eq_some_iff] at h
    obtain ⟨j, -, rfl⟩ := h
    refine ⟨?_, fun msg hm => .inl hm⟩
    simp only [Board.offered]
    split <;> exact hsame (by simp)
  | broadcast id =>
    simp only [boardStep, Option.map_eq_some_iff] at h
    obtain ⟨j, -, rfl⟩ := h
    exact ⟨hsame (by simp), fun msg hm => .inl hm⟩
  | notify id =>
    simp only [boardStep, Option.map_eq_some_iff] at h
    obtain ⟨j, -, rfl⟩ := h
    exact ⟨hsame (by simp), fun msg hm => .inl hm⟩
  | enqueue id alloc =>
    simp only [boardStep, Option.map_eq_some_iff] at h
    obtain ⟨j, -, rfl⟩ := h
    have hmore : (b.pubs.take id j .enqueue).history = b.pubs.history ++ [⟨id, j.info, .done .enqueue⟩] := rfl
    have htook : (Jobs.took .enqueue (b.pubs.take id j .enqueue).history).map (·.2.msg) =
      b.offered ++ [j.info.msg] := by
      rw [hmore, Jobs.took_concat, List.map_append]
      rfl
    have hpre : b.offered <+: (Jobs.took .enqueue (b.pubs.take id j .enqueue).history).map (·.2.msg) :=
      htook ▸ List.prefix_append _ _
    refine ⟨hpre, fun msg hm => ?_⟩
    -- The queue refuses a message when it is full or out of memory, and takes it at the end otherwise.
    simp only [enqueueMessage] at hm
    split_ifs at hm
    · exact .inl hm
    · exact .inl hm
    · apply (List.mem_append.1 hm).imp_right
      intro hm
      simp only [Board.offered, htook]
      exact List.mem_append_right _ hm
  | dequeue =>
    simp only [boardStep] at h
    split at h
    · cases h
    · rename_i first queue hq
      cases h
      exact ⟨List.prefix_rfl, fun msg hm => .inl (hq ▸ List.mem_cons_of_mem _ hm)⟩
  | restart now => exact absurd rfl (hbe now)

/-- A job of the board was there before, or is the one that the step starts. -/
theorem boardStep_job {be : BoardEvent} (h : boardStep charSigned running b be = some b') {id : Nat}
    {j : Job Publication PubStep} (hj : b'.pubs.jobs[id]? = some j) :
    (∃ j₀, b.pubs.jobs[id]? = some j₀ ∧ j.info = j₀.info) ∨
      (id = b.pubs.jobs.length ∧ ∃ actor now, be = .start actor j.info.origin now) := by
  have hset {k : Nat} {todo : List PubStep} {j₀ : Job Publication PubStep} {step : PubStep}
      (hj₀ : b.pubs.next k step = some j₀) (hj : (b.pubs.jobs.set k { j₀ with todo := todo })[id]? = some j) :
      ∃ j₁, b.pubs.jobs[id]? = some j₁ ∧ j.info = j₁.info := by
    rw [List.getElem?_set] at hj
    split_ifs at hj with hk hlt
    · cases hj
      exact ⟨j₀, hk ▸ (Jobs.next_some hj₀).1, rfl⟩
    · exact ⟨j, hj, rfl⟩
  cases boardStep_effect h with
  | @started actor origin now msg hidle hmsg =>
    rcases Nat.lt_trichotomy id b.pubs.jobs.length with hlt | rfl | hgt
    · exact .inl ⟨j, by simpa [Jobs.start, List.getElem?_append_left hlt] using hj, rfl⟩
    · obtain rfl : (⟨⟨actor, origin, msg⟩, origin.program.tail⟩ : Job Publication PubStep) = j := by
        simpa [Jobs.start] using hj
      exact .inr ⟨rfl, actor, now, rfl⟩
    · have hnone : (b.pubs.start ⟨actor, origin, msg⟩ .start origin.program.tail).jobs[id]? = none :=
        List.getElem?_eq_none (by simp only [Jobs.start, List.length_append, List.length_singleton]; omega)
      rw [hnone] at hj
      cases hj
  | saved hj₀ => exact .inl (hset hj₀ hj)
  | unsaved hj₀ => exact .inl (hset hj₀ hj)
  | shown hj₀ => exact .inl (hset hj₀ hj)
  | passed hk hj₀ => exact .inl (hset hj₀ hj)
  | dequeued => exact .inl ⟨j, hj, rfl⟩
  | restarted => cases hj

/-- The server's own threads start no publication of a module and leave the queue's end alone. -/
theorem serverStep_own {e : ServerEvent} (h : serverStep cfg s e = some s') (he : e.isOwn = true) :
    s'.delivering = s.delivering ∧ (s'.board = s.board ∨
      ∃ be, boardStep cfg.charSigned (cfg.modules != []) s.board be = some s'.board ∧ (∀ now, be ≠ .restart now) ∧
        ∀ actor name line now, be ≠ .start actor (.chat (.module name line)) now) := by
  have hboard {t : Server} {be : BoardEvent} (ht : t.onBoard cfg be = some s') (hb : t.board = s.board)
      (hd : t.delivering = s.delivering) (h1 : ∀ now, be ≠ .restart now)
      (h2 : ∀ actor name line now, be ≠ .start actor (.chat (.module name line)) now) :
      s'.delivering = s.delivering ∧ (s'.board = s.board ∨
        ∃ be, boardStep cfg.charSigned (cfg.modules != []) s.board be = some s'.board ∧ (∀ now, be ≠ .restart now) ∧
          ∀ actor name line now, be ≠ .start actor (.chat (.module name line)) now) := by
    obtain ⟨b, hstep, rfl⟩ := onBoard_some ht
    exact ⟨hd, .inr ⟨be, hb ▸ hstep, h1, h2⟩⟩
  cases e with
  | connect =>
    cases h
    exact ⟨rfl, .inl rfl⟩
  | promptKey i b rest | insertKey i key | commandKey i key | helpLang i | readMentions i =>
    obtain ⟨c, -, rfl⟩ := Option.map_eq_some_iff.1 h
    exact ⟨rfl, .inl rfl⟩
  | join i now =>
    obtain ⟨c, -, h⟩ := Option.bind_eq_some_iff.1 h
    dsimp only at h
    split at h
    · cases h
      exact ⟨rfl, .inl rfl⟩
    · exact hboard h rfl rfl (by simp) (by simp)
  | enter i now =>
    obtain ⟨c, -, h⟩ := Option.bind_eq_some_iff.1 h
    split at h
    · cases h
      exact ⟨rfl, .inl rfl⟩
    · exact hboard h rfl rfl (by simp) (by simp)
  | commandEnter i now =>
    obtain ⟨c, -, h⟩ := Option.bind_eq_some_iff.1 h
    dsimp only at h
    split at h
    · cases h
      exact ⟨rfl, .inl rfl⟩
    · simp only [commandsDispatch] at h
      split at h
      · split at h
        · cases h
          exact ⟨rfl, .inl rfl⟩
        split at h
        · cases h
          exact ⟨rfl, .inl rfl⟩
        · exact hboard h rfl rfl (by simp) (by simp)
      · cases h
        exact ⟨rfl, .inl rfl⟩
      · cases h
        exact ⟨rfl, .inl rfl⟩
  | leave i now =>
    obtain ⟨c, -, h⟩ := Option.bind_eq_some_iff.1 h
    exact hboard h rfl rfl (by simp) (by simp)
  | execPost sshLogin args now => exact hboard h rfl rfl (by simp) (by simp)
  | dequeue => cases he
  | respond name line now => cases he
  | save id env => exact hboard h rfl rfl (by simp) (by simp)
  | broadcast id => exact hboard h rfl rfl (by simp) (by simp)
  | notify id alloc =>
    obtain ⟨j, -, h⟩ := Option.bind_eq_some_iff.1 h
    exact hboard h rfl rfl (by simp) (by simp)
  | enqueue id alloc => exact hboard h rfl rfl (by simp) (by simp)
  | restart now => cases he

/-- A step of the server other than a new start: what it does to its board and to the message that the
modules are told of. -/
theorem serverStep_cases {e : ServerEvent} (h : serverStep cfg s e = some s') (he : ∀ now, e ≠ .restart now) :
    (s'.delivering = s.delivering ∨ (e = .dequeue ∧ s'.delivering = s.board.queue.head?)) ∧ (s'.board = s.board ∨
      ∃ be, boardStep cfg.charSigned (cfg.modules != []) s.board be = some s'.board ∧ (∀ now, be ≠ .restart now) ∧
        ∀ actor name line now, be = .start actor (.chat (.module name line)) now → e = .respond name line now) := by
  by_cases hown : e.isOwn = true
  · obtain ⟨hd, hb⟩ := serverStep_own h hown
    exact ⟨.inl hd, hb.imp_right fun ⟨be, hstep, h1, h2⟩ =>
      ⟨be, hstep, h1, fun actor name line now hbe => absurd hbe (h2 actor name line now)⟩⟩
  · cases e with
    | dequeue =>
      rw [serverStep, Option.ite_none_left_eq_some] at h
      obtain ⟨b, hstep, rfl⟩ := onBoard_some h.2
      exact ⟨.inr ⟨rfl, rfl⟩, .inr ⟨_, hstep, by simp, by simp⟩⟩
    | respond name line now =>
      rw [serverStep, Option.ite_none_right_eq_some] at h
      obtain ⟨b, hstep, rfl⟩ := onBoard_some h.2
      refine ⟨.inl rfl, .inr ⟨_, hstep, by simp, ?_⟩⟩
      rintro actor name' line' now' ⟨⟩
      rfl
    | restart now => exact absurd rfl (he now)
    | _ => exact absurd rfl hown

end

/-! ## Every reachable state -/

/-- A publication of a module was started when the runtime recorded it with the module. -/
def JobsRecorded (jobs : List (Job Publication PubStep)) (modules : List ModuleProcess) : Prop :=
  ∀ id j name line, jobs[id]? = some j → j.info.origin = .chat (.module name line) →
    ∃ m ∈ modules, m.name = name ∧ .published id ∈ m.history

structure RuntimeInv (cfg : ServerConfig) (r : Runtime) : Prop where
  server : ServerInv cfg r.server
  modules : ∀ i m, r.modules[i]? = some m → ModuleInv m (r.worker.on i)
  recorded : JobsRecorded r.server.board.pubs.jobs r.modules
  /-- Events are messages that were offered to the queue. -/
  events : ∀ msg, msg ∈ r.server.board.queue ∨ r.server.delivering = some msg → msg ∈ r.server.board.offered

section
variable {cfg : ServerConfig} {r r' : Runtime} {e : RuntimeEvent}

theorem runtimeInv_create (cfg : ServerConfig) (greetings : List Greeting) (dir : LogDir) (now : Int) :
    RuntimeInv cfg (.create cfg greetings dir now) where
  server := serverInv_create cfg dir now
  modules i m hm := by
    obtain ⟨⟨name, g⟩, -, rfl⟩ := List.mem_map.1 (List.mem_of_getElem? hm)
    exact moduleInv_started name g.output g.consumed
  recorded id j name line hj := by cases hj
  events msg hm := by rcases hm with hm | hm <;> cases hm

theorem JobsRecorded.grow {jobs : List (Job Publication PubStep)} (h : runtimeStep cfg r e = some r')
    (hr : JobsRecorded jobs r.modules) : JobsRecorded jobs r'.modules := by
  intro id j name line hj ho
  obtain ⟨m, hm, hname, hpub⟩ := hr id j name line hj ho
  obtain ⟨i, hi⟩ := List.mem_iff_getElem?.1 hm
  obtain ⟨m', hm', hex⟩ := runtimeStep_module h hi
  exact ⟨m', List.mem_of_getElem? hm', hex.grows.1.trans hname, hex.grows.2.1.subset hpub⟩

theorem runtimeInv_step (hi : RuntimeInv cfg r) (h : runtimeStep cfg r e = some r') : RuntimeInv cfg r' := by
  have hmodules (i : Nat) (m' : ModuleProcess) (hm' : r'.modules[i]? = some m') : ModuleInv m' (r'.worker.on i) := by
    have hlt : i < r.modules.length := runtimeStep_length h ▸ (List.getElem?_eq_some_iff.1 hm').1
    obtain ⟨m₁, hm₁, hex⟩ := runtimeStep_module h (List.getElem?_eq_getElem hlt)
    obtain rfl : m₁ = m' := Option.some.inj (hm₁.symm.trans hm')
    exact moduleInv_exchange (hi.modules i _ (List.getElem?_eq_getElem hlt)) hex
  rcases runtimeStep_server h with hsame | ⟨se, hs, hse⟩
  · exact ⟨hsame ▸ hi.server, hmodules, hsame ▸ hi.recorded.grow h, hsame ▸ hi.events⟩
  have hrestart (now : Int) : se ≠ .restart now := by
    rintro rfl
    rcases hse with hown | hd | ⟨i, m, m', text, now, hr, -⟩
    · cases hown
    · cases hd
    · cases hr
  obtain ⟨hdelivering, hboard⟩ := serverStep_cases hs hrestart
  refine ⟨serverInv_step hi.server hs, hmodules, ?_, ?_⟩
  · intro id j name line hj ho
    have hold {j₀ : Job Publication PubStep} (hj₀ : r.server.board.pubs.jobs[id]? = some j₀)
      (hinfo : j.info = j₀.info) :
        ∃ m ∈ r'.modules, m.name = name ∧ .published id ∈ m.history :=
      hi.recorded.grow h id j₀ name line hj₀ (hinfo ▸ ho)
    rcases hboard with hsame | ⟨be, hstep, -, hstart⟩
    · exact hold (hsame ▸ hj) rfl
    · rcases boardStep_job hstep hj with ⟨j₀, hj₀, hinfo⟩ | ⟨rfl, actor, now, hbe⟩
      · exact hold hj₀ hinfo
      · have hrespond := hstart actor name line now (ho ▸ hbe)
        rcases hse with hown | hd | ⟨i, m, m', text, now', hr, -, hm', hname, hpub⟩
        · rw [hrespond] at hown
          cases hown
        · rw [hrespond] at hd
          cases hd
        · rw [hrespond] at hr
          cases hr
          exact ⟨m', List.mem_of_getElem? hm', hname, hpub⟩
  · obtain ⟨hgrows, hqueue⟩ : r.server.board.offered <+: r'.server.board.offered ∧
        ∀ msg ∈ r'.server.board.queue, msg ∈ r.server.board.queue ∨ msg ∈ r'.server.board.offered := by
      rcases hboard with hsame | ⟨be, hstep, hbe, -⟩
      · rw [hsame]
        exact ⟨List.prefix_rfl, fun msg hm => .inl hm⟩
      · exact boardStep_offered hstep hbe
    have hqueued (msg : Message) (hm : msg ∈ r.server.board.queue ∨ r.server.delivering = some msg) :
        msg ∈ r'.server.board.offered := hgrows.subset (hi.events msg hm)
    rintro msg (hm | hm)
    · exact (hqueue msg hm).elim (fun hm => hqueued msg (.inl hm)) id
    · rcases hdelivering with hd | ⟨-, hd⟩
      · exact hqueued msg (.inr (hd ▸ hm))
      · exact hqueued msg (.inl (List.mem_of_mem_head? (hd ▸ hm)))

theorem runtimeInv_of_reachable {greetings : List Greeting} {dir : LogDir} {now : Int}
    (h : Reachable (runtimeStep cfg) (.create cfg greetings dir now) r) : RuntimeInv cfg r :=
  h.inv (RuntimeInv cfg) (fun _ _ _ hi hstep => runtimeInv_step hi hstep) (runtimeInv_create cfg greetings dir now)

end

/-! ## Containment -/

/-- What modules can do and cannot do. -/
structure Contained (cfg : ServerConfig) (r : Runtime) : Prop where
  /-- A module publishes at most so many messages for one event. -/
  few : ∀ m ∈ r.modules, FewPublished m.history
  /-- It is given up at the first failure, response too many, or invalid response too many in a row. -/
  active : ∀ m ∈ r.modules, m.active = true ↔ Undisturbed m.history
  /-- Then it is neither written to nor read from, and publishes nothing. -/
  left : ∀ (i : Nat) (m : ModuleProcess), r.modules[i]? = some m → m.active = false →
    ∀ es r', exec (runtimeStep cfg) r es = some r' → ∃ m' : ModuleProcess, r'.modules[i]? = some m' ∧
      m'.active = false ∧ m'.history = m.history ∧ m'.events = m.events ∧ m'.consumed = m.consumed
  /-- What is published for a module is recorded with it, and is plain text under its whole name. -/
  published : ∀ id j name line, r.server.board.pubs.jobs[id]? = some j → j.info.origin = .chat (.module name line) →
    (∃ m ∈ r.modules, m.name = name ∧ .published id ∈ m.history) ∧
      j.info.msg.username.bytes = lit "module:" ++ name ∧ j.info.msg.content.bytes ≠ [] ∧
      utf8IsValidString j.info.msg.content.bytes = true ∧ Plain j.info.msg.content.bytes
  /-- No publication of a module is offered to the queue. -/
  offered : ∀ id p, ⟨id, p, .done .enqueue⟩ ∈ r.server.board.pubs.history →
    ∀ name line, p.origin ≠ .chat (.module name line)
  /-- What is in the queue or delivered was offered. -/
  events : ∀ msg, msg ∈ r.server.board.queue ∨ r.server.delivering = some msg →
    ∃ id p, ⟨id, p, .done .enqueue⟩ ∈ r.server.board.pubs.history ∧ p.msg = msg

/-- Nothing happens to a module that is not active. -/
theorem Exchange.inactive {e : RuntimeEvent} {m m' : ModuleProcess} {phase phase' : Option (Nat × Bytes)}
    (h : Exchange e m phase m' phase') (hi : ModuleInv m phase) (hm : m.active = false) :
    m'.active = false ∧ m'.history = m.history ∧ m'.events = m.events ∧ m'.consumed = m.consumed := by
  have hnot {responses : Nat} {line : Bytes} : phase ≠ some (responses, line) := by
    intro hphase
    have hopen := (hi.reading _ _ hphase).1
    rw [hm] at hopen
    cases hopen
  cases h with
  | same => exact ⟨hm, rfl, rfl, rfl⟩
  | output => exact ⟨hm, rfl, rfl, rfl⟩
  | sent hopen | sendFailed hopen =>
    rw [hm] at hopen
    cases hopen
  | byte | readFailed | nothing | excess | more | done | invalid => exact absurd rfl hnot

/-- What a module publishes goes out under its name. -/
theorem composeModule_fields {now : Int} {name line : Bytes} {msg : Message} (hname : isValidModuleName name = true)
    (h : composeModule now name line = some msg) :
    msg.username.bytes = lit "module:" ++ name ∧ msg.content.bytes ≠ [] ∧
      utf8IsValidString msg.content.bytes = true ∧ Plain msg.content.bytes := by
  obtain ⟨text, htext, rfl⟩ := Option.map_eq_some_iff.1 h
  obtain ⟨hlen, hascii⟩ := moduleSender_ascii hname
  refine ⟨?_, parseMessageCreate_spec htext⟩
  dsimp only
  rw [CBuf.copy_bytes (fun h0 => (hascii 0 h0).1 rfl) hlen, moduleSender,
    List.take_of_length_le (isValidModuleName_spec hname).1]

/-- However modules behave, and whatever the other threads do meanwhile, they are contained. -/
theorem modules_contained (cfg : ServerConfig) (greetings : List Greeting) (dir : LogDir) (now : Int) (r : Runtime)
    (h : Reachable (runtimeStep cfg) (.create cfg greetings dir now) r) : Contained cfg r := by
  have hi := runtimeInv_of_reachable h
  have hmodule {m : ModuleProcess} (hm : m ∈ r.modules) : ∃ phase, ModuleInv m phase := by
    obtain ⟨i, hm⟩ := List.mem_iff_getElem?.1 hm
    exact ⟨_, hi.modules i m hm⟩
  refine ⟨fun m hm => (hmodule hm).elim fun _ h => h.few, fun m hm => (hmodule hm).elim fun _ h => h.active,
    ?_, ?_, ?_, ?_⟩
  · intro i m hm hclosed es r' hes
    have hrun := exec_inv (s := r) (fun s => RuntimeInv cfg s ∧ ∃ m', s.modules[i]? = some m' ∧ m'.active = false ∧
      m'.history = m.history ∧ m'.events = m.events ∧ m'.consumed = m.consumed) ?_
        ⟨hi, m, hm, hclosed, rfl, rfl, rfl⟩ hes
    · exact hrun.2
    · rintro s e s' ⟨hs, m₁, hm₁, hclosed₁, hhist, hevents, hconsumed⟩ hstep
      obtain ⟨m₂, hm₂, hex⟩ := runtimeStep_module hstep hm₁
      obtain ⟨h1, h2, h3, h4⟩ := hex.inactive (hs.modules i m₁ hm₁) hclosed₁
      exact ⟨runtimeInv_step hs hstep, m₂, hm₂, h1, h2.trans hhist, h3.trans hevents, h4.trans hconsumed⟩
  · intro id j name line hj ho
    refine ⟨hi.recorded id j name line hj ho, ?_⟩
    have hmem := List.mem_of_getElem? hj
    have hname : isValidModuleName name = true := by
      have hknown := hi.server.origins j hmem
      rw [ho] at hknown
      rcases hknown with hclean | ⟨sshLogin, args, hpost⟩
      · exact hclean
      · cases hpost
    obtain ⟨now', hmsg⟩ := hi.server.board.composed j hmem
    rw [ho] at hmsg
    exact composeModule_fields hname hmsg
  · intro id p hp name line ho
    have hcount := hi.server.board.follows.count_le hp (List.Sublist.refl _) .enqueue
    have hmem : .done .enqueue ∈ Jobs.trace id r.server.board.pubs.history := Jobs.mem_trace.2 ⟨p, hp⟩
    rw [Publication.program, ho] at hcount
    have hzero : List.count PubStep.enqueue (Origin.chat (.module name line)).program = 0 := rfl
    exact absurd (hcount.trans hzero.le) (Nat.not_le.2 (List.count_pos_iff.2 hmem))
  · intro msg hm
    obtain ⟨⟨id, p⟩, hx, rfl⟩ := List.mem_map.1 (hi.events msg hm)
    exact ⟨id, p, Jobs.mem_took.1 hx, rfl⟩

/-- A server with one module, `echo`. -/
def echoConfig : ServerConfig := ⟨true, 64, .en, [lit "echo"], by decide⟩

/-- A post is sent to `echo`, which answers with `line` in one piece. -/
def echoRun (line : Bytes) : List RuntimeEvent :=
  [.server (.execPost (CBuf.copy _ (lit "ann")) (lit "hi") 1752500000), .server (.save 0 (.written true)),
    .server (.broadcast 0), .server (.notify 0 true), .server (.enqueue 0 true), .dequeue, .send true,
    .output 0 line] ++
  List.replicate line.length (.read .byte 1752500000)

/-- `echo` publishes a message. -/
theorem modules_contained_echo : ∃ r,
    exec (runtimeStep echoConfig) (.create echoConfig [⟨[], 0, by decide⟩] ⟨none, none⟩ 1752500000)
      (echoRun (lit "\x7b\"type\":\"message.create\",\"plain_text\":\"hi\"\x7d\n")) = some r ∧
        Contained echoConfig r := by
  have hsome : (exec (runtimeStep echoConfig) (.create echoConfig [⟨[], 0, by decide⟩] ⟨none, none⟩ 1752500000)
      (echoRun (lit "\x7b\"type\":\"message.create\",\"plain_text\":\"hi\"\x7d\n"))).isSome = true := by
    decide +kernel
  obtain ⟨r, hr⟩ := Option.isSome_iff_exists.1 hsome
  exact ⟨r, hr, modules_contained echoConfig [⟨[], 0, by decide⟩] ⟨none, none⟩ 1752500000 r ⟨_, hr⟩⟩

end Tnt
